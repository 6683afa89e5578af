import Mathlib.Data.List.GetD
import Mathlib.Data.List.Nodup
import RuleInliner.Params.Basic

/-!
# Shared parameter handles

Model of `params_ref` (`params.cpp`). A handle is its pointer `m_params`, null or the address
of a `params` object; the objects live on a heap, each with its `m_ref_count`, and
`params::dec_ref` frees an object when the count drops to zero. Handles share objects:
`operator=` and the copy constructor point the target at the source's object and raise its
count. Every setter first calls `init()`, which gives the handle an object of its own (a fresh
one when it is null, a copy when `m_ref_count > 1`); `reset()` and `reset(k)` do not, and act
on the object in place, shared or not.

The reference model gives each handle an object of its own: copy-construction and assignment
copy the source's entries, `copy` merges them into the target, and every mutation changes the
target's object only. Over every sequence of operations the heap stays consistent (`Inv.run`:
no handle is left pointing to a freed object); over sequences without a reset the heap model
refines the reference model, getter by getter (`run_get_eq_refRun`); a reset through an alias
tells them apart (`reset_through_alias_diverges`).

Source → Lean: `params::inc_ref`/`dec_ref` → `Heap.incRef`/`Heap.decRef`; `operator=` →
`RefState.assign`; the copy constructor → `RefState.copyConstruct`; `copy`/`copy_core` →
`RefState.copy`/`RefState.copyCore`; `init` → `RefState.init`; the setters `set_bool`, … →
`RefState.set`; `reset()`/`reset(k)` → `RefState.reset`/`RefState.resetKey`; the getters →
`RefState.get`.
-/

namespace RuleInliner.Params

namespace Obj

/-- `params_ref::copy_core` on objects: every entry of `src`, in order, set on `dst` by the
setter of its kind. -/
def copyCore (dst src : Obj) : Obj := src.entries.foldl (fun o e => o.set e.1 e.2) dst

/-- The keys of an object, in entry order. -/
def keys (o : Obj) : List String := o.entries.map Prod.fst

lemma map_fst_setEntry (k : String) (v : Value) : ∀ l : List Entry,
    (setEntry k v l).map Prod.fst =
      if k ∈ l.map Prod.fst then l.map Prod.fst else l.map Prod.fst ++ [k]
  | [] => rfl
  | e :: es => by
    by_cases he : e.1 = k
    · simp [setEntry, he]
    · have hk : ¬k = e.1 := Ne.symm he
      rw [setEntry, if_neg he, List.map_cons, map_fst_setEntry k v es]
      simp only [List.map_cons, List.mem_cons, hk, false_or]
      split_ifs <;> rfl

/-- The setters keep the keys of an object distinct. -/
lemma nodup_keys_set {o : Obj} (h : o.keys.Nodup) (k : String) (v : Value) :
    (o.set k v).keys.Nodup := by
  unfold keys set at *
  rw [map_fst_setEntry]
  split_ifs with hk
  · exact h
  · exact h.append (List.nodup_singleton k) (by simpa using hk)

lemma nodup_keys_foldl_set (es : List Entry) : ∀ {o : Obj}, o.keys.Nodup →
    (es.foldl (fun o e => o.set e.1 e.2) o).keys.Nodup := by
  induction es with
  | nil => exact id
  | cons e es ih => exact fun h => ih (nodup_keys_set h e.1 e.2)

lemma nodup_keys_copyCore {dst : Obj} (h : dst.keys.Nodup) (src : Obj) :
    (dst.copyCore src).keys.Nodup :=
  nodup_keys_foldl_set src.entries h

lemma sublist_eraseKey (k : String) : ∀ l : List Entry,
    List.Sublist ((eraseKey k l).map Prod.fst) (l.map Prod.fst)
  | [] => .slnil
  | e :: es => by
    by_cases he : e.1 = k
    · simp [eraseKey, he]
    · simpa [eraseKey, he] using (sublist_eraseKey k es).cons₂ e.1

lemma nodup_keys_resetKey {o : Obj} (h : o.keys.Nodup) (k : String) :
    (o.resetKey k).keys.Nodup :=
  (sublist_eraseKey k o.entries).nodup h

lemma setEntry_of_not_mem {k : String} (v : Value) : ∀ {l : List Entry},
    k ∉ l.map Prod.fst → setEntry k v l = l ++ [(k, v)]
  | [], _ => rfl
  | e :: es, h => by
    simp only [List.map_cons, List.mem_cons, not_or] at h
    rw [setEntry, if_neg (Ne.symm h.1), setEntry_of_not_mem v h.2, List.cons_append]

/-- Setting entries with fresh keys appends them. -/
lemma foldl_set_of_nodup : ∀ (es acc : List Entry), ((acc ++ es).map Prod.fst).Nodup →
    es.foldl (fun o e => o.set e.1 e.2) (⟨acc⟩ : Obj) = ⟨acc ++ es⟩
  | [], acc, _ => by simp
  | e :: es, acc, h => by
    have hfresh : e.1 ∉ acc.map Prod.fst := by
      simp only [List.map_append, List.map_cons] at h
      exact fun hm => (List.nodup_append.mp h).2.2 hm (List.mem_cons_self _ _)
    have ih := foldl_set_of_nodup es (acc ++ [e]) (by simpa using h)
    simpa [set, setEntry_of_not_mem e.2 hfresh] using ih

/-- Copying an object into an empty one reproduces it. -/
lemma empty_copyCore {o : Obj} (h : o.keys.Nodup) : empty.copyCore o = o := by
  simpa [copyCore, empty] using foldl_set_of_nodup o.entries [] h

end Obj

/-! ## The heap -/

/-- A heap cell: a `params` object and its `m_ref_count`. -/
structure Cell where
  obj : Obj
  refCount : Nat

/-- The heap of parameter objects: the cell at each address (`none` where nothing is allocated
or the object was freed) and the next address `alloc` hands out. -/
structure Heap where
  cells : Nat → Option Cell
  next : Nat

namespace Heap

/-- `alloc(params)`: a fresh empty object with `m_ref_count` zero. -/
def alloc (h : Heap) : Heap :=
  { cells := Function.update h.cells h.next (some ⟨.empty, 0⟩), next := h.next + 1 }

/-- `params::inc_ref`. -/
def incRef (h : Heap) (a : Nat) : Heap where
  cells := Function.update h.cells a ((h.cells a).map fun c => { c with refCount := c.refCount + 1 })
  next := h.next

/-- `params::dec_ref`: the object is freed when its count drops to zero. -/
def decRef (h : Heap) (a : Nat) : Heap where
  cells := Function.update h.cells a ((h.cells a).bind fun c =>
    if c.refCount - 1 = 0 then none else some { c with refCount := c.refCount - 1 })
  next := h.next

/-- `if (p) p->inc_ref();` -/
def incRefOpt (h : Heap) : Option Nat → Heap
  | some a => h.incRef a
  | none => h

/-- `if (p) p->dec_ref();` -/
def decRefOpt (h : Heap) : Option Nat → Heap
  | some a => h.decRef a
  | none => h

/-- A call `f` on the object at `a`. -/
def modify (h : Heap) (a : Nat) (f : Obj → Obj) : Heap where
  cells := Function.update h.cells a ((h.cells a).map fun c => { c with obj := f c.obj })
  next := h.next

/-- The object at `a` (empty where nothing is allocated). -/
def obj (h : Heap) (a : Nat) : Obj := ((h.cells a).map Cell.obj).getD .empty

/-- The `m_ref_count` of the object at `a` (zero where nothing is allocated). -/
def refCount (h : Heap) (a : Nat) : Nat := ((h.cells a).map Cell.refCount).getD 0

/-- What a handle reads: the object it points to, or nothing when it is null. -/
def deref (h : Heap) : Option Nat → Obj
  | some a => h.obj a
  | none => .empty

/-- No object is allocated from `next` on. -/
def Fresh (h : Heap) : Prop := ∀ a, h.next ≤ a → h.cells a = none

section
variable {h : Heap} {a b : Nat}

lemma refCount_of_none (ha : h.cells a = none) : h.refCount a = 0 := by simp [refCount, ha]

lemma obj_of_none (ha : h.cells a = none) : h.obj a = .empty := by simp [obj, ha]

lemma isSome_of_refCount_pos (ha : 0 < h.refCount a) : (h.cells a).isSome := by
  cases hc : h.cells a <;> simp_all [refCount]

variable (h a b)

@[simp] lemma cells_alloc_next : h.alloc.cells h.next = some ⟨.empty, 0⟩ := by simp [alloc]

@[simp] lemma refCount_alloc : h.alloc.refCount b = if b = h.next then 0 else h.refCount b := by
  by_cases hb : b = h.next <;> simp [alloc, refCount, hb]

@[simp] lemma refCount_incRef :
    (h.incRef a).refCount b = if b = a ∧ (h.cells a).isSome then h.refCount b + 1 else h.refCount b := by
  by_cases hb : b = a
  · subst hb; cases hc : h.cells b <;> simp [incRef, refCount, hc]
  · simp [incRef, refCount, hb]

@[simp] lemma refCount_decRef :
    (h.decRef a).refCount b = if b = a then h.refCount b - 1 else h.refCount b := by
  by_cases hb : b = a
  · subst hb
    cases hc : h.cells b with
    | none => simp [decRef, refCount, hc]
    | some c => by_cases h1 : c.refCount - 1 = 0 <;> simp [decRef, refCount, hc, h1]
  · simp [decRef, refCount, hb]

@[simp] lemma refCount_modify (f : Obj → Obj) : (h.modify a f).refCount b = h.refCount b := by
  by_cases hb : b = a
  · subst hb; cases hc : h.cells b <;> simp [modify, refCount, hc]
  · simp [modify, refCount, hb]

@[simp] lemma obj_incRef : (h.incRef a).obj b = h.obj b := by
  by_cases hb : b = a
  · subst hb; cases hc : h.cells b <;> simp [incRef, obj, hc]
  · simp [incRef, obj, hb]

@[simp] lemma obj_modify (f : Obj → Obj) :
    (h.modify a f).obj b = if b = a ∧ (h.cells a).isSome then f (h.obj a) else h.obj b := by
  by_cases hb : b = a
  · subst hb; cases hc : h.cells b <;> simp [modify, obj, hc]
  · simp [modify, obj, hb]

lemma obj_alloc (hf : h.cells h.next = none) : h.alloc.obj b = h.obj b := by
  by_cases hb : b = h.next
  · subst hb; rw [obj_of_none hf]; simp [obj]
  · simp [alloc, obj, hb]

/-- `dec_ref` changes no object that stays allocated. -/
lemma obj_decRef_of_pos (hb : 0 < (h.decRef a).refCount b) : (h.decRef a).obj b = h.obj b := by
  by_cases hba : b = a
  · subst hba
    cases hc : h.cells b with
    | none => simp [decRef, obj, hc]
    | some c =>
      have h1 : ¬c.refCount - 1 = 0 := fun h1 => by simp [decRef, refCount, hc, h1] at hb
      simp [decRef, obj, hc, h1]
  · simp [decRef, obj, hba]

lemma refCount_incRefOpt {p : Option Nat} (hp : ∀ a, p = some a → (h.cells a).isSome) :
    (h.incRefOpt p).refCount b = h.refCount b + if p = some b then 1 else 0 := by
  cases p with
  | none => simp [incRefOpt]
  | some a =>
    by_cases hb : b = a
    · subst hb; simp [incRefOpt, hp b rfl]
    · simp [incRefOpt, hb, Ne.symm hb]

@[simp] lemma refCount_decRefOpt (q : Option Nat) :
    (h.decRefOpt q).refCount b = h.refCount b - if q = some b then 1 else 0 := by
  cases q with
  | none => simp [decRefOpt]
  | some a => by_cases hb : b = a <;> simp [decRefOpt, hb, eq_comm]

@[simp] lemma obj_incRefOpt (p : Option Nat) : (h.incRefOpt p).obj b = h.obj b := by
  cases p <;> simp [incRefOpt]

lemma obj_decRefOpt_of_pos (q : Option Nat) (hb : 0 < (h.decRefOpt q).refCount b) :
    (h.decRefOpt q).obj b = h.obj b := by
  cases q with
  | none => rfl
  | some a => exact obj_decRef_of_pos h a b hb

end

namespace Fresh
variable {h : Heap} (hf : h.Fresh) (a : Nat)
include hf

lemma incRef : (h.incRef a).Fresh := fun b hb => by
  by_cases hba : b = a
  · subst hba; simp [Heap.incRef, hf b hb]
  · simpa [Heap.incRef, hba] using hf b hb

lemma decRef : (h.decRef a).Fresh := fun b hb => by
  by_cases hba : b = a
  · subst hba; simp [Heap.decRef, hf b hb]
  · simpa [Heap.decRef, hba] using hf b hb

lemma modify (f : Obj → Obj) : (h.modify a f).Fresh := fun b hb => by
  by_cases hba : b = a
  · subst hba; simp [Heap.modify, hf b hb]
  · simpa [Heap.modify, hba] using hf b hb

lemma alloc : h.alloc.Fresh := fun b hb => by
  have hne : b ≠ h.next := by simp [Heap.alloc] at hb; omega
  simpa [Heap.alloc, hne] using hf b (by simp [Heap.alloc] at hb; omega)

lemma incRefOpt (p : Option Nat) : (h.incRefOpt p).Fresh := by
  cases p
  · exact hf
  · exact hf.incRef _

lemma decRefOpt (q : Option Nat) : (h.decRefOpt q).Fresh := by
  cases q
  · exact hf
  · exact hf.decRef _

end Fresh

end Heap

/-! ## Handles -/

/-- The operations on handles that the reference model describes: the copy constructor,
`operator=`, `copy`, the setters, `reset(k)` and `reset()`. -/
inductive Op where
  | copyConstruct (src : Nat)
  | assign (dst src : Nat)
  | copy (dst src : Nat)
  | set (dst : Nat) (k : String) (v : Value)
  | resetKey (dst : Nat) (k : String)
  | reset (dst : Nat)

/-- The operations other than the two resets. -/
def Op.resetFree : Op → Bool
  | .resetKey _ _ | .reset _ => false
  | _ => true

/-- A program's handles (the `m_params` of each `params_ref`) over the heap. -/
structure RefState where
  heap : Heap
  handles : List (Option Nat)

namespace RefState

/-- `n` default-constructed handles (`m_params(0)`) over an empty heap. -/
def start (n : Nat) : RefState := ⟨⟨fun _ => none, 0⟩, List.replicate n none⟩

/-- The pointer of handle `i`. -/
def handle (s : RefState) (i : Nat) : Option Nat := s.handles.getD i none

/-- `params_ref::operator=`: handle `i` takes handle `j`'s object; the source's count is raised
before the target's old object is released. -/
def assign (s : RefState) (i j : Nat) : RefState :=
  ⟨(s.heap.incRefOpt (s.handle j)).decRefOpt (s.handle i), s.handles.set i (s.handle j)⟩

/-- The copy constructor `params_ref(params_ref const & p)`: a new null handle, then
`operator=`. -/
def copyConstruct (s : RefState) (j : Nat) : RefState :=
  assign ⟨s.heap, s.handles ++ [none]⟩ s.handles.length j

/-- A call `f` on the object of handle `i`, when it has one. -/
def update (s : RefState) (i : Nat) (f : Obj → Obj) : RefState :=
  match s.handle i with
  | some a => ⟨s.heap.modify a f, s.handles⟩
  | none => s

/-- `params_ref::copy_core`: the entries of the object at `src` set on handle `i`'s object;
nothing when `src` is null. -/
def copyCore (s : RefState) (i : Nat) : Option Nat → RefState
  | some b => s.update i (·.copyCore (s.heap.obj b))
  | none => s

/-- `m_params = alloc(params); m_params->inc_ref();` on handle `i`. -/
def allocFor (s : RefState) (i : Nat) : RefState :=
  ⟨s.heap.alloc.incRef s.heap.next, s.handles.set i (some s.heap.next)⟩

/-- `params_ref::init`: handle `i` gets an object of its own, a fresh one when it is null and a
copy of its object when that is shared (`m_ref_count > 1`). -/
def init (s : RefState) (i : Nat) : RefState :=
  match s.handle i with
  | none => s.allocFor i
  | some a =>
    if 1 < s.heap.refCount a then
      let s' := (s.allocFor i).copyCore i (some a)
      ⟨s'.heap.decRef a, s'.handles⟩
    else s

/-- `params_ref::copy`: handle `i` shares the source's object when it is null; otherwise it is
un-shared and the source's entries are copied into its object. -/
def copy (s : RefState) (i j : Nat) : RefState :=
  match s.handle i with
  | none => s.assign i j
  | some _ => (s.init i).copyCore i ((s.init i).handle j)

/-- The setters `set_bool`, `set_uint`, `set_double`, `set_rat`, `set_str` and `set_sym`:
`init()`, then the object's setter. -/
def set (s : RefState) (i : Nat) (k : String) (v : Value) : RefState :=
  (s.init i).update i (·.set k v)

/-- `params_ref::reset(k)`: the key is erased from handle `i`'s object in place. -/
def resetKey (s : RefState) (i : Nat) (k : String) : RefState := s.update i (·.resetKey k)

/-- `params_ref::reset()`: handle `i`'s object is cleared in place. -/
def reset (s : RefState) (i : Nat) : RefState := s.update i Obj.reset

/-- The getters of `params_ref`: the object's getter `g`, or the default when `m_params` is
null. -/
def get {α : Type} (s : RefState) (i : Nat) (g : Obj → α → α) (d : α) : α :=
  match s.handle i with
  | some a => g (s.heap.obj a) d
  | none => d

/-- `params_ref::get_bool`. -/
def getBool (s : RefState) (i : Nat) (k : String) (d : Bool) : Bool := s.get i (·.getBool k) d

/-- `params_ref::get_uint`. -/
def getUint (s : RefState) (i : Nat) (k : String) (d : UInt32) : UInt32 :=
  s.get i (·.getUint k) d

/-- `params_ref::get_rat`. -/
def getRat (s : RefState) (i : Nat) (k : String) (d : ℚ) : ℚ := s.get i (·.getRat k) d

/-- `params_ref::contains`. -/
def contains (s : RefState) (i : Nat) (k : String) : Bool :=
  s.get i (fun o _ => o.contains k) false

/-- One operation. -/
def step (s : RefState) : Op → RefState
  | .copyConstruct j => s.copyConstruct j
  | .assign i j => s.assign i j
  | .copy i j => s.copy i j
  | .set i k v => s.set i k v
  | .resetKey i k => s.resetKey i k
  | .reset i => s.reset i

/-- A sequence of operations. -/
def run (s : RefState) (ops : List Op) : RefState := ops.foldl step s

end RefState

/-- Modelled from the spec: one operation on the reference model, in which every handle owns
its object. -/
def refStep (m : List Obj) : Op → List Obj
  | .copyConstruct j => m ++ [m.getD j .empty]
  | .assign i j => m.set i (m.getD j .empty)
  | .copy i j => m.set i ((m.getD i .empty).copyCore (m.getD j .empty))
  | .set i k v => m.set i ((m.getD i .empty).set k v)
  | .resetKey i k => m.set i ((m.getD i .empty).resetKey k)
  | .reset i => m.set i .empty

/-- Modelled from the spec: a sequence of operations on the reference model. -/
def refRun (m : List Obj) (ops : List Op) : List Obj := ops.foldl refStep m

/-! ## The heap invariant -/

lemma set_getD_self {α : Type} : ∀ (l : List α) (i : Nat) (d : α), l.set i (l.getD i d) = l
  | [], _, _ => rfl
  | _ :: _, 0, _ => rfl
  | a :: l, i + 1, d => congrArg (a :: ·) (set_getD_self l i d)

lemma getD_append_default {α : Type} (l : List α) (d : α) (j : Nat) :
    (l ++ [d]).getD j d = l.getD j d := by
  by_cases hj : j < l.length
  · exact List.getD_append _ _ _ _ hj
  · rw [List.getD_append_right _ _ _ _ (by omega)]
    simp [List.getD_eq_default _ _ (Nat.le_of_not_lt hj),
      List.getElem?_eq_none (Nat.le_of_not_lt hj)]

/-- Two positions of a list holding an element that occurs at most once are the same. -/
lemma eq_of_count_le_one {L : List (Option Nat)} {a i k : Nat}
    (hc : L.count (some a) ≤ 1) (hi : i < L.length) (hk : k < L.length) (hLi : L[i] = some a)
    (hLk : L[k] = some a) : i = k := by
  by_contra hne
  have h1 := List.count_set none (some a) L i hi
  have h2 : some a ∈ L.set i none :=
    List.mem_iff_getElem.mpr ⟨k, by simpa using hk, by simp [List.getElem_set, hne, hLk]⟩
  have h3 := List.count_pos_iff.mpr h2
  simp [hLi] at h1
  omega

namespace RefState

variable {s : RefState} {i j a : Nat}

/-- The objects the handles read, in handle order: the abstraction to the reference model. -/
def abs (s : RefState) : List Obj := s.handles.map s.heap.deref

/-- What handle `i` reads. -/
def view (s : RefState) (i : Nat) : Obj := s.heap.deref (s.handle i)

lemma view_eq_getD (s : RefState) (i : Nat) : s.view i = s.abs.getD i .empty := by
  show _ = (s.handles.map s.heap.deref).getD i (s.heap.deref none)
  rw [List.getD_map]; rfl

lemma handle_eq_getElem (hi : i < s.handles.length) : s.handle i = s.handles[i] := by
  simp [handle, hi]

lemma handle_of_le (hi : s.handles.length ≤ i) : s.handle i = none :=
  List.getD_eq_default _ _ hi

lemma lt_of_handle (h : s.handle i = some a) : i < s.handles.length :=
  Nat.lt_of_not_le fun hi => by simp [handle_of_le hi] at h

lemma mem_of_handle (h : s.handle i = some a) : some a ∈ s.handles := by
  rw [handle_eq_getElem (lt_of_handle h)] at h
  exact h ▸ List.getElem_mem _

/-- Pointing handle `i` at `p` adds at most one pointer to `p` and removes the old one. -/
lemma count_set_handle (s : RefState) (i : Nat) (p : Option Nat) (a : Nat) :
    (s.handles.set i p).count (some a) + (if s.handle i = some a then 1 else 0) ≤
      s.handles.count (some a) + (if p = some a then 1 else 0) := by
  by_cases hi : i < s.handles.length
  · have hle : (if s.handle i = some a then 1 else 0) ≤ s.handles.count (some a) := by
      split_ifs with h
      · exact List.count_pos_iff.mpr (mem_of_handle h)
      · exact Nat.zero_le _
    rw [List.count_set _ _ _ _ hi, ← handle_eq_getElem hi]
    simp only [beq_iff_eq] at *
    split_ifs at * <;> omega
  · simp [List.set_eq_of_length_le (Nat.le_of_not_lt hi), handle_of_le (Nat.le_of_not_lt hi)]

/-- The heap invariant of `params_ref`: nothing is allocated from `next` on, and the
`m_ref_count` of each object is at least the number of handles pointing to it. -/
structure Inv (s : RefState) : Prop where
  fresh : s.heap.Fresh
  counted : ∀ a, s.handles.count (some a) ≤ s.heap.refCount a

lemma Inv.pos (hs : Inv s) (ha : some a ∈ s.handles) : 0 < s.heap.refCount a :=
  Nat.lt_of_lt_of_le (List.count_pos_iff.mpr ha) (hs.counted a)

/-- A handle never points to a freed object. -/
lemma Inv.live (hs : Inv s) (h : s.handle i = some a) : (s.heap.cells a).isSome :=
  Heap.isSome_of_refCount_pos (hs.pos (mem_of_handle h))

lemma Inv.next_not_mem (hs : Inv s) : some s.heap.next ∉ s.handles := fun h => by
  have := hs.pos h
  rw [Heap.refCount_of_none (hs.fresh _ le_rfl)] at this
  omega

/-- Where every object still allocated is unchanged, every handle reads what it read. -/
lemma map_deref_congr {H H' : Heap} {L : List (Option Nat)}
    (hc : ∀ a, L.count (some a) ≤ H'.refCount a)
    (hk : ∀ a, 0 < H'.refCount a → H'.obj a = H.obj a) : L.map H'.deref = L.map H.deref :=
  List.map_congr_left fun
    | some a, ha => hk a (Nat.lt_of_lt_of_le (List.count_pos_iff.mpr ha) (hc a))
    | none, _ => rfl

/-! ### `operator=` and the copy constructor -/

lemma refCount_assign (hs : Inv s) (i j a : Nat) :
    (s.assign i j).heap.refCount a = s.heap.refCount a + (if s.handle j = some a then 1 else 0)
      - (if s.handle i = some a then 1 else 0) := by
  simp only [assign, Heap.refCount_decRefOpt]
  rw [Heap.refCount_incRefOpt _ _ fun _ hb => hs.live hb]

lemma Inv.assign (hs : Inv s) (i j : Nat) : Inv (s.assign i j) where
  fresh := (hs.fresh.incRefOpt _).decRefOpt _
  counted a := by
    have h1 := count_set_handle s i (s.handle j) a
    have h2 := hs.counted a
    have h3 : (if s.handle i = some a then 1 else 0) ≤ s.handles.count (some a) := by
      split_ifs with h
      · exact List.count_pos_iff.mpr (mem_of_handle h)
      · exact Nat.zero_le _
    rw [refCount_assign hs]
    show (s.handles.set i (s.handle j)).count (some a) ≤ _
    omega

lemma abs_assign (hs : Inv s) (i j : Nat) :
    (s.assign i j).abs = s.abs.set i (s.abs.getD j .empty) := by
  have hk : ∀ a, 0 < (s.assign i j).heap.refCount a →
      (s.assign i j).heap.obj a = s.heap.obj a := fun a ha => by
    rw [assign, Heap.obj_decRefOpt_of_pos _ _ _ ha, Heap.obj_incRefOpt]
  rw [abs, map_deref_congr (hs.assign i j).counted hk, ← view_eq_getD]
  simp [assign, abs, view]

lemma Inv.extend (hs : Inv s) : Inv ⟨s.heap, s.handles ++ [none]⟩ :=
  ⟨hs.fresh, fun a => by simpa using hs.counted a⟩

lemma Inv.copyConstruct (hs : Inv s) (j : Nat) : Inv (s.copyConstruct j) :=
  hs.extend.assign _ _

lemma abs_copyConstruct (hs : Inv s) (j : Nat) :
    (s.copyConstruct j).abs = s.abs ++ [s.abs.getD j .empty] := by
  have he : abs ⟨s.heap, s.handles ++ [none]⟩ = s.abs ++ [.empty] := by simp [abs, Heap.deref]
  rw [copyConstruct, abs_assign hs.extend, he, getD_append_default]
  simp [abs]

/-! ### `init`, the setters and the resets -/

/-- Handle `i`, when it exists, points to an object no other handle points to. -/
def Owned (s : RefState) (i : Nat) : Prop :=
  i < s.handles.length → ∃ a, s.handle i = some a ∧ s.handles.count (some a) ≤ 1

lemma refCount_allocFor (s : RefState) (i a : Nat) :
    (s.allocFor i).heap.refCount a = if a = s.heap.next then 1 else s.heap.refCount a := by
  by_cases ha : a = s.heap.next <;> simp [allocFor, ha]

lemma Inv.allocFor (hs : Inv s) (i : Nat) : Inv (s.allocFor i) where
  fresh := hs.fresh.alloc.incRef _
  counted a := by
    have h1 := count_set_handle s i (some s.heap.next) a
    have h2 := hs.counted a
    have h3 := List.count_eq_zero.mpr hs.next_not_mem
    rw [refCount_allocFor]
    show (s.handles.set i (some s.heap.next)).count (some a) ≤ _
    by_cases ha : a = s.heap.next
    · subst ha; simp only [if_true] at h1 ⊢; omega
    · simp only [if_neg ha, Option.some.injEq, Ne.symm ha, if_false] at h1 ⊢; omega

lemma abs_allocFor (hs : Inv s) (i : Nat) : (s.allocFor i).abs = s.abs.set i .empty := by
  have hn := hs.fresh _ le_rfl
  have hk : ∀ a, 0 < (s.allocFor i).heap.refCount a →
      (s.allocFor i).heap.obj a = s.heap.obj a := fun a _ => by
    simp [allocFor, Heap.obj_alloc _ _ hn]
  rw [abs, map_deref_congr (hs.allocFor i).counted hk]
  simp [allocFor, abs, Heap.deref, Heap.obj_of_none hn]

lemma owned_allocFor (hs : Inv s) (i : Nat) : (s.allocFor i).Owned i := fun hi => by
  have h1 := count_set_handle s i (some s.heap.next) s.heap.next
  have h3 := List.count_eq_zero.mpr hs.next_not_mem
  refine ⟨s.heap.next, ?_, ?_⟩
  · simp only [allocFor] at hi ⊢
    simp [handle, List.getElem?_set_self (by simpa using hi)]
  · simp only [allocFor, if_true] at h1 ⊢
    omega

@[simp] lemma handles_update (s : RefState) (i : Nat) (f : Obj → Obj) :
    (s.update i f).handles = s.handles := by
  unfold update; split <;> rfl

@[simp] lemma refCount_update (s : RefState) (i : Nat) (f : Obj → Obj) (b : Nat) :
    (s.update i f).heap.refCount b = s.heap.refCount b := by
  unfold update; split <;> simp

@[simp] lemma handles_copyCore (s : RefState) (i : Nat) (src : Option Nat) :
    (s.copyCore i src).handles = s.handles := by
  cases src <;> simp [copyCore]

@[simp] lemma refCount_copyCore (s : RefState) (i : Nat) (src : Option Nat) (b : Nat) :
    (s.copyCore i src).heap.refCount b = s.heap.refCount b := by
  cases src <;> simp [copyCore]

lemma Inv.update (hs : Inv s) (i : Nat) (f : Obj → Obj) : Inv (s.update i f) := by
  unfold RefState.update
  split
  · exact ⟨hs.fresh.modify _ _, fun a => by simpa using hs.counted a⟩
  · exact hs

lemma Inv.copyCore (hs : Inv s) (i : Nat) (src : Option Nat) : Inv (s.copyCore i src) := by
  cases src
  · exact hs
  · exact hs.update _ _

/-- A call on an object of its own changes what handle `i` reads, and nothing else. -/
lemma abs_update (hs : Inv s) (ho : s.Owned i) (f : Obj → Obj) :
    (s.update i f).abs = s.abs.set i (f (s.view i)) := by
  by_cases hi : i < s.handles.length
  · obtain ⟨a, ha, hc⟩ := ho hi
    have hlive := hs.live ha
    simp only [update, ha]
    refine List.ext_getElem (by simp [abs]) fun k hk1 _ => ?_
    have hk : k < s.handles.length := by simpa [abs] using hk1
    simp only [abs, List.getElem_map, List.getElem_set]
    split_ifs with hik
    · subst hik
      rw [← handle_eq_getElem hi, ha]
      simp [Heap.deref, view, ha, hlive]
    · cases hL : s.handles[k] with
      | none => rfl
      | some b =>
        have hb : b ≠ a := fun hba => hik (eq_of_count_le_one hc hi hk
          (by rw [← handle_eq_getElem hi, ha]) (by rw [hL, hba]))
        simp [Heap.deref, hb]
  · have hl : s.abs.length ≤ i := by simpa [abs] using Nat.le_of_not_lt hi
    simp [update, handle_of_le (Nat.le_of_not_lt hi), List.set_eq_of_length_le hl]

lemma abs_copyCore (hs : Inv s) (ho : s.Owned i) (src : Option Nat) :
    (s.copyCore i src).abs = s.abs.set i ((s.view i).copyCore (s.heap.deref src)) := by
  cases src with
  | none => exact (congrArg (s.abs.set i) (view_eq_getD s i)).trans (set_getD_self _ _ _) |>.symm
  | some b => exact abs_update hs ho _

/-- Releasing an object that one pointer fewer than counted points to. -/
lemma Inv.decRef (hs : Inv s) (hc : s.handles.count (some a) + 1 ≤ s.heap.refCount a) :
    Inv ⟨s.heap.decRef a, s.handles⟩ where
  fresh := hs.fresh.decRef _
  counted b := by
    have := hs.counted b
    by_cases hb : b = a
    · subst hb; dsimp only; rw [Heap.refCount_decRef, if_pos rfl]; omega
    · simpa [hb] using this

lemma abs_decRef (hs : Inv s) (hc : s.handles.count (some a) + 1 ≤ s.heap.refCount a) :
    abs ⟨s.heap.decRef a, s.handles⟩ = s.abs :=
  map_deref_congr (hs.decRef hc).counted fun _ hb => Heap.obj_decRef_of_pos _ _ _ hb

/-- The keys of every object of the reference state are distinct. -/
def KeysNodup (m : List Obj) : Prop := ∀ o ∈ m, o.keys.Nodup

lemma KeysNodup.getD {m : List Obj} (hm : KeysNodup m) (i : Nat) :
    (m.getD i .empty).keys.Nodup := by
  rw [List.getD_eq_getElem?_getD]
  cases h : m[i]? with
  | none => exact List.nodup_nil
  | some o => exact hm o (List.getElem?_mem h)

/-- `init()` keeps the invariant, gives handle `i` an object of its own, and changes what no
handle reads. -/
lemma init_spec (hs : Inv s) (i : Nat) :
    Inv (s.init i) ∧ (s.init i).Owned i ∧ (KeysNodup s.abs → (s.init i).abs = s.abs) := by
  unfold init
  split
  · next hi =>
    refine ⟨hs.allocFor i, owned_allocFor hs i, fun _ => ?_⟩
    rw [abs_allocFor hs, show (Obj.empty : Obj) = s.abs.getD i .empty by
      rw [← view_eq_getD, view, hi]; rfl, set_getD_self]
  · next a ha =>
    split_ifs with hrc
    · -- the object is shared: a fresh copy for handle `i`, and the old one released
      have hn : a ≠ s.heap.next := fun h => hs.next_not_mem (h ▸ mem_of_handle ha)
      have hs1 := hs.allocFor i
      have ho1 := owned_allocFor hs i
      have hcnt := count_set_handle s i (some s.heap.next) a
      have hca := hs.counted a
      rw [ha, if_pos rfl, if_neg (Ne.symm hn ∘ Option.some.inj)] at hcnt
      have hc : ((s.allocFor i).copyCore i (some a)).handles.count (some a) + 1 ≤
          ((s.allocFor i).copyCore i (some a)).heap.refCount a := by
        simp only [handles_copyCore, refCount_copyCore, refCount_allocFor, if_neg hn]
        exact Nat.le_trans hcnt (Nat.le_trans (Nat.le_of_eq (Nat.add_zero _)) hca)
      have hs2 := hs1.copyCore i (some a)
      refine ⟨hs2.decRef hc, fun hi => ?_, fun hkeys => ?_⟩
      · obtain ⟨c, hc1, hc2⟩ := ho1 (by simpa using hi)
        exact ⟨c, by simpa [handle] using hc1, by simpa using hc2⟩
      · have hview : s.view i = s.heap.obj a := by rw [view, ha]; rfl
        have hobj : (s.allocFor i).heap.obj a = s.heap.obj a := by
          simp [allocFor, Heap.obj_alloc _ _ (hs.fresh _ le_rfl)]
        have hnew : (s.allocFor i).view i = .empty := by
          have hia : i < s.abs.length := by simpa [abs] using lt_of_handle ha
          rw [view_eq_getD, abs_allocFor hs, List.getD_eq_getElem?_getD,
            List.getElem?_set_self hia]
          rfl
        have hnd : (s.heap.obj a).keys.Nodup := by
          rw [← hview, view_eq_getD]; exact hkeys.getD i
        rw [abs_decRef hs2 hc, abs_copyCore hs1 ho1, abs_allocFor hs, hnew, List.set_set]
        simp only [Heap.deref, hobj, Obj.empty_copyCore hnd]
        rw [← hview, view_eq_getD, set_getD_self]
    · refine ⟨hs, fun _ => ⟨a, ha, ?_⟩, fun _ => rfl⟩
      have := hs.counted a
      omega

lemma Inv.init (hs : Inv s) (i : Nat) : Inv (s.init i) := (init_spec hs i).1

/-! ### Whole operations -/

lemma Inv.copy (hs : Inv s) (i j : Nat) : Inv (s.copy i j) := by
  unfold RefState.copy
  split
  · exact hs.assign i j
  · exact (hs.init i).copyCore _ _

lemma abs_copy (hs : Inv s) (hk : KeysNodup s.abs) (i j : Nat) :
    (s.copy i j).abs = s.abs.set i ((s.abs.getD i .empty).copyCore (s.abs.getD j .empty)) := by
  unfold RefState.copy
  split
  · next hi =>
    rw [abs_assign hs, ← view_eq_getD s i]
    simp only [view, hi, Heap.deref, Obj.empty_copyCore (hk.getD j)]
  · obtain ⟨hs1, ho1, habs⟩ := init_spec hs i
    have hj : (s.init i).heap.deref ((s.init i).handle j) = s.abs.getD j .empty := by
      rw [← habs hk, ← view_eq_getD]; rfl
    rw [abs_copyCore hs1 ho1, view_eq_getD, habs hk, hj]

lemma Inv.set (hs : Inv s) (i : Nat) (k : String) (v : Value) : Inv (s.set i k v) :=
  (hs.init i).update _ _

lemma abs_set (hs : Inv s) (hk : KeysNodup s.abs) (i : Nat) (k : String) (v : Value) :
    (s.set i k v).abs = s.abs.set i ((s.abs.getD i .empty).set k v) := by
  obtain ⟨hs1, ho1, habs⟩ := init_spec hs i
  rw [RefState.set, abs_update hs1 ho1, view_eq_getD, habs hk]

lemma Inv.step (hs : Inv s) : ∀ op, Inv (s.step op)
  | .copyConstruct j => hs.copyConstruct j
  | .assign i j => hs.assign i j
  | .copy i j => hs.copy i j
  | .set i k v => hs.set i k v
  | .resetKey i _ => hs.update i _
  | .reset i => hs.update i _

/-- Over every sequence of operations, the resets included, every count covers the handles
pointing to its object: no handle is left pointing to a freed object. -/
lemma Inv.run (hs : Inv s) (ops : List Op) : Inv (s.run ops) := by
  induction ops generalizing s with
  | nil => exact hs
  | cons op _ ih => exact ih (hs.step op)

lemma inv_start (n : Nat) : Inv (start n) :=
  ⟨fun _ _ => rfl, fun a => by simp [start, Heap.refCount, List.count_replicate]⟩

/-- From null handles, every sequence of operations keeps every handle on a live object. -/
theorem start_run_inv (n : Nat) (ops : List Op) : Inv ((start n).run ops) :=
  (inv_start n).run ops

/-! ## Refinement of the reference model -/

lemma KeysNodup.set_obj {m : List Obj} (hm : KeysNodup m) {o : Obj} (ho : o.keys.Nodup)
    (i : Nat) : KeysNodup (m.set i o) :=
  fun x hx => (List.mem_or_eq_of_mem_set hx).elim (hm x) fun h => h ▸ ho

lemma KeysNodup.refStep {m : List Obj} (hm : KeysNodup m) : ∀ op, KeysNodup (refStep m op)
  | .copyConstruct j => fun x hx => (List.mem_append.mp hx).elim (hm x) fun h => by
      rw [List.mem_singleton.mp h]; exact hm.getD j
  | .assign i j => hm.set_obj (hm.getD j) i
  | .copy i _ => hm.set_obj (Obj.nodup_keys_copyCore (hm.getD i) _) i
  | .set i k v => hm.set_obj (Obj.nodup_keys_set (hm.getD i) k v) i
  | .resetKey i k => hm.set_obj (Obj.nodup_keys_resetKey (hm.getD i) k) i
  | .reset i => hm.set_obj (show Obj.empty.keys.Nodup from List.nodup_nil) i

/-- The heap model represents the reference state `m`. -/
structure Sim (s : RefState) (m : List Obj) : Prop where
  inv : Inv s
  abs_eq : s.abs = m
  keys : KeysNodup m

/-- One operation other than a reset is simulated by the reference model. -/
lemma Sim.step {m : List Obj} (h : Sim s m) {op : Op} (hop : op.resetFree = true) :
    Sim (s.step op) (refStep m op) := by
  obtain ⟨hs, rfl, hk⟩ := h
  refine ⟨hs.step op, ?_, hk.refStep op⟩
  cases op with
  | copyConstruct j => exact abs_copyConstruct hs j
  | assign i j => exact abs_assign hs i j
  | copy i j => exact abs_copy hs hk i j
  | set i k v => exact abs_set hs hk i k v
  | resetKey => cases hop
  | reset => cases hop

lemma Sim.run {m : List Obj} (h : Sim s m) {ops : List Op}
    (hops : ∀ op ∈ ops, op.resetFree = true) : Sim (s.run ops) (refRun m ops) := by
  induction ops generalizing s m with
  | nil => exact h
  | cons op _ ih =>
    exact ih (h.step (hops op (List.mem_cons_self _ _))) fun o ho =>
      hops o (List.mem_cons_of_mem _ ho)

lemma sim_start (n : Nat) : Sim (start n) (List.replicate n .empty) where
  inv := inv_start n
  abs_eq := by simp [start, abs, Heap.deref]
  keys := fun o ho => by rw [List.eq_of_mem_replicate ho]; exact List.nodup_nil

/-- A getter reads the object of the handle, the default standing for the empty object. -/
lemma get_eq_view {α : Type} (s : RefState) (i : Nat) {g : Obj → α → α}
    (hg : ∀ d, g .empty d = d) (d : α) : s.get i g d = g (s.view i) d := by
  unfold get view
  split
  · next a ha => rw [ha]; rfl
  · next ha => rw [ha]; exact (hg d).symm

/-- Handle 1 is copy-constructed from handle 0 and then set. -/
def copySetOps : List Op := [.set 0 "a" (.bool true), .copyConstruct 0, .set 1 "a" (.bool false)]

/-! ## Resets through an alias -/

/-- `reset(k)` through handle `j` is seen through every handle that shares its object: it acts
on the object in place, with no `init()` first. -/
lemma view_resetKey_of_alias (hs : Inv s) (hij : s.handle i = s.handle j) (k : String) :
    (s.resetKey j k).view i = (s.view i).resetKey k := by
  unfold resetKey update view
  cases hj : s.handle j with
  | none => rw [hij, hj]; rfl
  | some a =>
    show Heap.deref _ (s.handle i) = _
    simp [hij, hj, Heap.deref, hs.live hj]

/-- Handle 0 sets `a`, handle 1 is copy-constructed from it, and handle 1 erases `a`. -/
def aliasResetOps : List Op := [.set 0 "a" (.bool true), .copyConstruct 0, .resetKey 1 "a"]

theorem reset_through_alias_diverges :
    ((start 1).run aliasResetOps).getBool 0 "a" false = false ∧
      ((refRun [.empty] aliasResetOps).getD 0 .empty).getBool "a" false = true := by
  refine ⟨?_, by decide⟩
  have halias : ((start 1).run (aliasResetOps.take 2)).handle 0 =
      ((start 1).run (aliasResetOps.take 2)).handle 1 := by decide
  show (((start 1).run (aliasResetOps.take 2)).resetKey 1 "a").get 0 _ false = false
  rw [get_eq_view _ _ (fun _ => rfl), view_resetKey_of_alias ((inv_start 1).run _) halias]
  decide

end RefState

end RuleInliner.Params
