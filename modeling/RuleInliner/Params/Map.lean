import RuleInliner.Params.Ref

/-!
# A parameter object is a finite map

The macros of `params.cpp` keep `m_entries` as a vector scanned front to back: `SET_VALUE`
overwrites the first entry with the key or appends one, `RESET` removes the first entry with
the key and shifts the rest down, and `GET_VALUE`, `CONTAINS` and `get_rat` read the first
matching entry. This module shows that over every sequence of setters and resets the vector
never holds a key twice (`nodup_keys_run`), and that it then behaves as a finite map from keys
to values, each value with its kind: the first entry with a key is its value (`lookup`), every
getter is a function of it (`getValue_eq_filter`, `contains_eq_isSome`, `getRat_eq_lookup`),
and each operation changes it at the key it is about only (`lookup_step`). The map a run
builds is the one its operations describe, read off the last operation on each key
(`lastSet`, `lookup_run`). The getters `get_double`, `get_str`, `get_sym`, `get_expr`,
`get_func_decl` and `get_sort` are `GET_VALUE` at their kinds, as `get_bool` and `get_uint`
are (`Obj.getBool`, `Obj.getUint`), so `getValue` covers them all (the AST kinds find nothing,
since the model stores no AST value); `get_rat` reads numerals and
unsigned values both, and converts an unsigned one through `static_cast<int>`
(`getRat_set_uint`).
-/

namespace RuleInliner.Params

/-- The operations that change one `params` object: the setters `set_bool`, `set_uint`,
`set_double`, `set_str`, `set_rat` and `set_sym` (all `SET_VALUE` with the value's kind),
`reset(k)` and `reset()`. -/
inductive ObjOp where
  | set (k : String) (v : Value)
  | resetKey (k : String)
  | reset
  deriving DecidableEq, Repr

namespace ObjOp

/-- Whether an operation concerns key `k`: a set or `reset(k)` of `k`, or `reset()`. -/
def touches (k : String) : ObjOp → Bool
  | .set k' _ | .resetKey k' => k' = k
  | .reset => true

/-- The value an operation leaves under the keys it concerns. -/
def value? : ObjOp → Option Value
  | .set _ v => some v
  | _ => none

end ObjOp

namespace Obj

/-- One operation on an object. -/
def step (o : Obj) : ObjOp → Obj
  | .set k v => o.set k v
  | .resetKey k => o.resetKey k
  | .reset => o.reset

/-- A sequence of operations on an object. -/
def run (o : Obj) (ops : List ObjOp) : Obj := ops.foldl step o

/-- The abstraction to a finite map: the value of the first entry with key `k`. -/
def lookup (o : Obj) (k : String) : Option Value := (o.entries.find? (·.1 = k)).map (·.2)

/-- Modelled from the spec: what a key holds after a sequence of operations on a fresh object,
read off the last operation that concerns it: the value of a set, nothing after a reset. -/
def lastSet (ops : List ObjOp) (k : String) : Option Value :=
  (ops.reverse.find? (·.touches k)).bind ObjOp.value?

lemma lastSet_append_singleton (ops : List ObjOp) (op : ObjOp) (k : String) :
    lastSet (ops ++ [op]) k = if op.touches k then op.value? else lastSet ops k := by
  by_cases h : op.touches k <;> simp [lastSet, List.find?_cons, h]

/-! ## The abstraction under each operation -/

lemma find?_eq_none_of_not_mem {k : String} {p : Entry → Bool} {l : List Entry}
    (hk : k ∉ l.map Prod.fst) (hp : ∀ e, p e = true → e.1 = k) : l.find? p = none :=
  List.find?_eq_none.mpr fun e he hpe => hk (hp e hpe ▸ List.mem_map_of_mem _ he)

lemma lookup_set (o : Obj) (k k' : String) (v : Value) :
    (o.set k v).lookup k' = if k = k' then some v else o.lookup k' := by
  obtain ⟨l⟩ := o
  simp only [set, lookup]
  induction l with
  | nil => by_cases h : k = k' <;> simp [setEntry, h]
  | cons e es ih =>
    by_cases he : e.1 = k
    · by_cases h : k = k' <;> simp_all [setEntry, List.find?_cons]
    · by_cases h : e.1 = k'
      · have hk : k ≠ k' := fun hk => he (h.trans hk.symm)
        simp [setEntry, List.find?_cons, he, h, hk, Ne.symm hk]
      · simp [setEntry, List.find?_cons, he, h, ih]

lemma lookup_resetKey {o : Obj} (h : o.keys.Nodup) (k k' : String) :
    (o.resetKey k).lookup k' = if k = k' then none else o.lookup k' := by
  obtain ⟨l⟩ := o
  simp only [keys, resetKey, lookup] at h ⊢
  induction l with
  | nil => simp [eraseKey]
  | cons e es ih =>
    obtain ⟨hfresh, hes⟩ := List.nodup_cons.mp h
    by_cases he : e.1 = k
    · by_cases h' : k = k'
      · subst h'
        simp [eraseKey, he, find?_eq_none_of_not_mem (p := fun e => decide (e.1 = k)) (he ▸ hfresh)
          (fun _ hp => of_decide_eq_true hp)]
      · simp [eraseKey, List.find?_cons, he, h']
    · by_cases h' : e.1 = k'
      · have hk : k ≠ k' := fun hk => he (h'.trans hk.symm)
        simp [eraseKey, List.find?_cons, he, h', hk, Ne.symm hk]
      · simp [eraseKey, List.find?_cons, he, h', ih hes]

lemma lookup_step {o : Obj} (h : o.keys.Nodup) (op : ObjOp) (k : String) :
    (o.step op).lookup k = if op.touches k then op.value? else o.lookup k := by
  cases op with
  | set k' v => simpa [step, ObjOp.touches, ObjOp.value?] using lookup_set o k' k v
  | resetKey k' => simpa [step, ObjOp.touches, ObjOp.value?] using lookup_resetKey h k' k
  | reset => rfl

/-- No operation makes a key appear twice. -/
lemma nodup_keys_step {o : Obj} (h : o.keys.Nodup) : ∀ op, (o.step op).keys.Nodup
  | .set k v => nodup_keys_set h k v
  | .resetKey k => nodup_keys_resetKey h k
  | .reset => List.nodup_nil

lemma nodup_keys_run {o : Obj} (h : o.keys.Nodup) (ops : List ObjOp) : (o.run ops).keys.Nodup := by
  induction ops generalizing o with
  | nil => exact h
  | cons op ops ih => exact ih (nodup_keys_step h op)

lemma run_append_singleton (o : Obj) (ops : List ObjOp) (op : ObjOp) :
    o.run (ops ++ [op]) = (o.run ops).step op := List.foldl_append _ _ _ _

/-- A run from a fresh object holds, under every key, what the last operation on the key left. -/
lemma lookup_run (ops : List ObjOp) (k : String) : (empty.run ops).lookup k = lastSet ops k := by
  induction ops using List.reverseRecOn with
  | nil => rfl
  | append_singleton ops op ih =>
    rw [run_append_singleton, lookup_step (nodup_keys_run (o := empty) List.nodup_nil ops),
      lastSet_append_singleton, ih]

/-! ## The getters read the abstraction -/

/-- `GET_VALUE` at kind `X` is the value under `k` when it has kind `X`. -/
lemma getValue_eq_filter {o : Obj} (h : o.keys.Nodup) (k : String) (X : Kind) :
    o.getValue k X = (o.lookup k).filter (·.kind = X) := by
  obtain ⟨l⟩ := o
  simp only [keys, getValue, lookup] at h ⊢
  induction l with
  | nil => rfl
  | cons e es ih =>
    obtain ⟨hfresh, hes⟩ := List.nodup_cons.mp h
    by_cases he : e.1 = k
    · have hnone : es.find? (fun e => e.1 = k && e.2.kind = X) = none :=
        find?_eq_none_of_not_mem (he ▸ hfresh) fun _ hp => of_decide_eq_true ((Bool.and_eq_true _ _).mp hp).1
      by_cases hX : e.2.kind = X <;> simp [List.find?_cons, he, hX, hnone, Option.filter]
    · simp [List.find?_cons, he, ih hes]

lemma contains_eq_isSome (o : Obj) (k : String) : o.contains k = (o.lookup k).isSome := by
  rw [Bool.eq_iff_iff]
  simp [contains, lookup, List.find?_isSome]

/-- `get_rat` reads the value under `k` when it is a numeral or an unsigned value. -/
lemma getRat_eq_lookup {o : Obj} (h : o.keys.Nodup) (k : String) (d : ℚ) :
    o.getRat k d = match o.lookup k with
      | some (.numeral q) => q
      | some (.uint v) => intCast v
      | _ => d := by
  obtain ⟨l⟩ := o
  simp only [keys, getRat, lookup] at h ⊢
  induction l with
  | nil => rfl
  | cons e es ih =>
    obtain ⟨hfresh, hes⟩ := List.nodup_cons.mp h
    obtain ⟨k', v⟩ := e
    by_cases he : k' = k
    · subst he
      have hnone : es.find? (fun e => e.1 = k' && (e.2.kind = .numeral || e.2.kind = .uint)) =
          none := find?_eq_none_of_not_mem hfresh fun _ hp => of_decide_eq_true ((Bool.and_eq_true _ _).mp hp).1
      cases v <;> simp only [List.find?_cons, hnone] <;> simp [Value.kind]
    · simpa [List.find?_cons, he] using ih hes

/-! ## Refinement -/

/-! ## `get_rat` of an unsigned value -/

lemma find?_setEntry_self (k : String) (v : Value) {p : Value → Bool} (hp : p v = true) :
    ∀ l : List Entry, (setEntry k v l).find? (fun e => e.1 = k && p e.2) = some (k, v)
  | [] => by simp [setEntry, hp]
  | e :: es => by
    by_cases he : e.1 = k
    · simp [setEntry, he, hp]
    · simp [setEntry, he, find?_setEntry_self k v hp es]

/-- After `set_uint(k, v)`, `get_rat(k, d)` is `v` read through `static_cast<int>`. -/
lemma getRat_set_uint (o : Obj) (k : String) (v : UInt32) (d : ℚ) :
    (o.set k (.uint v)).getRat k d = intCast v := by
  simp only [getRat, set, find?_setEntry_self k (.uint v) (p := fun v => v.kind = .numeral || v.kind = .uint)
    (by simp [Value.kind]) o.entries]

/-- `static_cast<int>` keeps the values below `2^31` and moves the others down by `2^32`. -/
lemma intCast_eq (v : UInt32) :
    intCast v = if v.toNat < 2147483648 then (v.toNat : Int) else v.toNat - 4294967296 := by
  have hv : v.toNat < 4294967296 := v.toBitVec.isLt
  simp only [intCast, Int.bmod, show Nat.pow 2 32 = 4294967296 from rfl]
  split_ifs <;> omega

end Obj

/-- `UINT_MAX` stored by `set_uint` reads back through `get_rat` as `-1`, on an object and through
a fresh `params_ref`. -/
theorem getRat_set_uint_max (o : Obj) (k : String) (d : ℚ) :
    (o.set k (.uint 4294967295)).getRat k d = -1 ∧
    ((RefState.start 1).set 0 k (.uint 4294967295)).getRat 0 k d = -1 := by
  have h : (Obj.empty.set k (.uint 4294967295)).getRat k d = -1 := by
    rw [Obj.getRat_set_uint, Obj.intCast_eq]; rfl
  exact ⟨by rw [Obj.getRat_set_uint, Obj.intCast_eq]; rfl, h⟩

end RuleInliner.Params
