import Mathlib
import RuleInliner.Linear.Termination
import RuleInliner.Syntax.Subst

/-!
# The visitors of the linear inliner

`inline_linear` keeps, besides the rules `acc`, a head visitor and a tail visitor: for each atom,
the list of positions whose rule holds it. `add_rule` appends position `i` under the head and
under every uninterpreted tail atom of the rule it registers, and `del_rule` removes one
occurrence of `i` from each of these lists. The two are only inverse when `del_rule` is given
the rule `add_rule` was given: the driver calls `del_rule(r, i)` after `try_to_inline_rule` has
renumbered `acc[i]` in place, so the lists stay right only because that renumbering changes
nothing on rules with dense variables (`Rule.normVars_eq_self`), which every resolvent has
(`tryToInlineRule_denseVars`).

`RegisteredAs s reg` says that the visitors of `s` hold exactly the positions of the rules
`reg` assigns (once under the head, once per tail occurrence) and that the indices hold their
atoms; `add_rule` and `del_rule` move it by one position (`RegisteredAs.addRule`,
`RegisteredAs.delRule`). `Registered` adds that the registered rules are the valid ones, that
`can_expand` holds only of rules of its shape (`ExpandShape`, kept by resolution:
`ExpandShape.resolvent`), and that the valid rules are normalised. It holds after the set-up
(`registered_linearInit`), and one pass of the loop body keeps it with every `del_position`
finding its entry (`Registered.step`, from `Registered.resolve` and `Registered.invalidate`).
The head and tail queries then count exactly the valid unifying occurrences
(`Registered.count_queryIndex_head`, `Registered.count_queryIndex_tail`), and
`linear_visitors_registered` states all of it for every state the driver starts an iteration
from (`LinearReach`).

The renumbering is modelled from the spec (`Rule.normVars`), and so is the contract of the
collaborators that build the resolvent's final form: `fix_unbound_vars` and the interpreted-tail
simplifier return rules with dense variables (`Context.KeepsDense`), as every rule the rule
manager builds has them.
-/

namespace RuleInliner

/-- Modelled from the spec: the rule manager's `fix_unbound_vars` and the interpreted-tail
simplifier build their rules with the rule manager, so a rule with dense variables comes back
with dense variables. -/
structure Context.KeepsDense (ctx : Context) : Prop where
  closeUnbound : ∀ r : Rule, r.DenseVars → Rule.DenseVars { r with interp := ctx.closeUnbound r }
  simplify : ∀ (r : Rule) (s : Subst × List Constraint), r.DenseVars → ctx.simplify r = some s →
    Rule.DenseVars { r.subst s.1 with interp := s.2 }

/-- The reference collaborators change no rule. -/
lemma Context.reference_keepsDense (outputs facts : List Pred) (params : Params.Obj) :
    (Context.reference outputs facts params).KeepsDense :=
  ⟨fun _ h => h, fun r s h hs => by
    cases hs
    rwa [Rule.subst_eq_self fun _ _ => rfl]⟩

/-- Every resolvent `try_to_inline_rule` returns has dense variables. -/
lemma tryToInlineRule_denseVars {ctx : Context} (hctx : ctx.KeepsDense) {cv cv' : Converters}
    {tgt src res : Rule} {i : Nat} (h : tryToInlineRule ctx cv tgt src i = (some res, cv')) :
    res.DenseVars := by
  unfold tryToInlineRule at h
  split at h
  · cases h
  split at h
  · cases h
  split at h
  · cases h
  rename_i hres
  cases h
  unfold applyUnifier at hres
  simp only [Option.map_eq_some'] at hres
  obtain ⟨s, hs, rfl⟩ := hres
  refine hctx.simplify _ s ?_ hs
  split
  · exact hctx.closeUnbound _ (Rule.denseVars_normVars _)
  · exact Rule.denseVars_normVars _

/-! ## Position maps -/

namespace Positions

lemma find_cons (a : Atom) (js : List Nat) (m : Positions) (e : Atom) :
    find ((a, js) :: m) e = if a = e then js else m.find e := by
  by_cases h : a = e <;> simp [find, List.find?_cons, h]

/-- `add_position` appends to the list of its atom and to no other. -/
lemma find_addPosition (e : Atom) (j : Nat) : ∀ (m : Positions) (e' : Atom),
    (addPosition e j m).find e' = if e' = e then m.find e ++ [j] else m.find e'
  | [], e' => by
    by_cases h : e' = e
    · subst h; simp [addPosition, find_cons, find]
    · simp [addPosition, find_cons, find, h, Ne.symm h]
  | (a, js) :: m, e' => by
    unfold addPosition
    by_cases ha : a = e
    · subst ha
      by_cases h : e' = a
      · subst h; simp [find_cons]
      · simp [find_cons, h, Ne.symm h]
    · rw [if_neg ha, find_cons, find_addPosition e j m e', find_cons, find_cons, if_neg ha]
      by_cases h : a = e'
      · subst h; simp [ha]
      · simp [h]

lemma count_find_addPosition (e : Atom) (j : Nat) (m : Positions) (e' : Atom) (k : Nat) :
    ((addPosition e j m).find e').count k = (m.find e').count k + if e' = e ∧ k = j then 1 else 0 := by
  rw [find_addPosition]
  by_cases h : e' = e
  · by_cases hk : k = j
    · simp [h, hk]
    · simp [h, hk, List.count_singleton, Ne.symm hk]
  · simp [h]

/-- Registering the atoms `l` at position `j` adds `j` once per occurrence of each atom. -/
lemma count_find_foldl_addPosition (j : Nat) : ∀ (l : List Atom) (m : Positions) (e : Atom) (k : Nat),
    ((l.foldl (fun m t => addPosition t j m) m).find e).count k =
      (m.find e).count k + if k = j then l.count e else 0
  | [], m, e, k => by simp
  | t :: l, m, e, k => by
    rw [List.foldl_cons, count_find_foldl_addPosition j l, count_find_addPosition, List.count_cons]
    by_cases hk : k = j
    · by_cases he : e = t
      · simp only [hk, he, and_self, if_true, beq_self_eq_true]
        omega
      · simp only [hk, he, false_and, if_false, if_true, beq_iff_eq, Ne.symm he]
        omega
    · simp only [hk, and_false, if_false]

/-- `del_position` finds the list of its atom when it holds the position, and removes one
occurrence of it. -/
lemma delPosition_ok {e : Atom} {j : Nat} : ∀ {m : Positions}, j ∈ m.find e →
    ∃ m', delPosition e j m = .ok m' ∧
      ∀ e', m'.find e' = if e' = e then (m.find e).erase j else m.find e'
  | [], h => absurd h (List.not_mem_nil _)
  | (a, js) :: m, h => by
    unfold delPosition
    by_cases ha : a = e
    · subst ha
      refine ⟨_, if_pos rfl, fun e' => ?_⟩
      by_cases h' : e' = a
      · subst h'; simp [find_cons]
      · simp [find_cons, h', Ne.symm h']
    · rw [find_cons, if_neg ha] at h
      obtain ⟨m', hm', hfind⟩ := delPosition_ok h
      refine ⟨_, by rw [if_neg ha, hm'], fun e' => ?_⟩
      rw [find_cons, find_cons, hfind, find_cons, if_neg ha]
      by_cases h' : a = e'
      · subst h'; simp [ha]
      · simp [h']

/-- Unregistering the atoms `l` from position `j` succeeds when each list holds `j` at least as
often as its atom occurs in `l`, and removes that many occurrences. -/
lemma foldlM_delPosition_ok (j : Nat) : ∀ (l : List Atom) (m : Positions),
    (∀ e, l.count e ≤ (m.find e).count j) →
    ∃ m', l.foldlM (fun m t => delPosition t j m) m = .ok m' ∧
      ∀ e k, (m'.find e).count k = (m.find e).count k - if k = j then l.count e else 0
  | [], m, _ => ⟨m, rfl, fun e k => by simp⟩
  | t :: l, m, h => by
    have ht : j ∈ m.find t := List.count_pos_iff.mp
      (lt_of_lt_of_le (List.count_pos_iff.mpr (List.mem_cons_self t l)) (h t))
    obtain ⟨m₁, hm₁, hfind⟩ := delPosition_ok ht
    have hc₁ : ∀ e k, (m₁.find e).count k =
        (m.find e).count k - if k = j then [t].count e else 0 := fun e k => by
      rw [hfind, List.count_singleton]
      by_cases he : e = t
      · subst he
        by_cases hk : k = j
        · simp [hk]
        · simp [hk, List.count_erase, Ne.symm hk]
      · simp [he, Ne.symm he]
    have hcons : ∀ e, (t :: l).count e = l.count e + [t].count e := fun e => by
      rw [List.count_cons, List.count_singleton]
    obtain ⟨m', hm', hc'⟩ := foldlM_delPosition_ok j l m₁ fun e => by
      have := h e
      rw [hcons] at this
      rw [hc₁ e j, if_pos rfl]
      omega
    refine ⟨m', by rw [List.foldlM_cons, hm₁]; exact hm', fun e k => ?_⟩
    rw [hc', hc₁, hcons]
    split_ifs <;> omega

end Positions

/-! ## Registration -/

lemma getElem!_set {α : Type} [Inhabited α] (l : List α) (i k : Nat) (x : α) :
    (l.set i x)[k]! = if i = k ∧ i < l.length then x else l[k]! := by
  by_cases hk : k < l.length
  · rw [getElem!_pos (l.set i x) k (by simpa using hk), getElem!_pos l k hk, List.getElem_set]
    by_cases h : i = k
    · subst h; simp [hk]
    · simp [h]
  · rw [getElem!_neg (l.set i x) k (by simpa using hk), getElem!_neg l k hk]
    split_ifs with h
    · exact absurd (h.1 ▸ h.2) hk
    · rfl

lemma set_getElem!_self {α : Type} [Inhabited α] (l : List α) (i : Nat) : l.set i l[i]! = l := by
  refine List.ext_getElem (by simp) fun k h₁ h₂ => ?_
  rw [List.getElem_set]
  split_ifs with h
  · subst h; exact getElem!_pos l _ h₂
  · rfl

lemma lt_length_of_getElem! {l : List Bool} {i : Nat} (h : l[i]! = true) : i < l.length := by
  by_contra hi
  rw [getElem!_neg l i hi] at h
  cases h

/-- The rule each valid position holds. -/
def validRules (acc : List Rule) (valid : List Bool) (k : Nat) : Option Rule :=
  if valid[k]! then some acc[k]! else none

lemma validRules_set_acc {acc : List Rule} {valid : List Bool} {i : Nat} (hi : i < acc.length)
    (hv : valid[i]! = true) (r : Rule) :
    validRules (acc.set i r) valid = Function.update (validRules acc valid) i (some r) := by
  funext k
  by_cases hk : k = i
  · subst hk; simp [validRules, getElem!_set, hi, hv]
  · simp [validRules, getElem!_set, hk, Ne.symm hk]

lemma validRules_set_valid {acc : List Rule} {valid : List Bool} {j : Nat} (hj : j < valid.length) :
    validRules acc (valid.set j false) = Function.update (validRules acc valid) j none := by
  funext k
  by_cases hk : k = j
  · subst hk; simp [validRules, getElem!_set, hj]
  · simp [validRules, getElem!_set, hk, Ne.symm hk]

/-- How often the head visitor holds position `k` under `e` when `reg` gives the rule registered
at each position. -/
def headCount (reg : Nat → Option Rule) (k : Nat) (e : Atom) : Nat :=
  match reg k with
  | some r => if e = r.head then 1 else 0
  | none => 0

/-- How often the tail visitor holds position `k` under `e`. -/
def tailCount (reg : Nat → Option Rule) (k : Nat) (e : Atom) : Nat :=
  match reg k with
  | some r => (r.pos ++ r.neg).count e
  | none => 0

namespace LinearState

/-- The visitors of `s` hold exactly the positions of the rules `reg` assigns, and the indices
hold their atoms, each once. -/
structure RegisteredAs (s : LinearState) (reg : Nat → Option Rule) : Prop where
  head : ∀ k e, (s.headPositions.find e).count k = headCount reg k e
  tail : ∀ k e, (s.tailPositions.find e).count k = tailCount reg k e
  headIndex : ∀ k r, reg k = some r → r.head ∈ s.headIndex
  tailIndex : ∀ k r, reg k = some r → ∀ e ∈ r.pos ++ r.neg, e ∈ s.tailIndex
  headNodup : s.headIndex.Nodup
  tailNodup : s.tailIndex.Nodup

lemma RegisteredAs.congr {s : LinearState} {reg reg' : Nat → Option Rule} (h : s.RegisteredAs reg)
    (e : reg = reg') : s.RegisteredAs reg' := e ▸ h

/-- Only the visitors and the indices matter. -/
lemma RegisteredAs.of_eq {s s' : LinearState} {reg : Nat → Option Rule} (h : s.RegisteredAs reg)
    (hh : s'.headPositions = s.headPositions) (ht : s'.tailPositions = s.tailPositions)
    (hhi : s'.headIndex = s.headIndex) (hti : s'.tailIndex = s.tailIndex) : s'.RegisteredAs reg :=
  ⟨hh ▸ h.head, ht ▸ h.tail, hhi ▸ h.headIndex, hti ▸ h.tailIndex, hhi ▸ h.headNodup,
    hti ▸ h.tailNodup⟩

lemma foldl_addTail_eq (i : Nat) : ∀ (l : List Atom) (s : LinearState),
    l.foldl (fun s t => { s with tailPositions := Positions.addPosition t i s.tailPositions,
                                 tailIndex := s.tailIndex.insert t }) s =
      { s with tailPositions := l.foldl (fun m t => Positions.addPosition t i m) s.tailPositions,
               tailIndex := l.foldl (fun ix t => ix.insert t) s.tailIndex }
  | [], _ => rfl
  | _ :: l, _ => foldl_addTail_eq i l _

/-- The shape `can_expand` stands for: one uninterpreted tail atom, positive, over a predicate
that is neither an output predicate nor backed by facts. -/
def ExpandShape (ctx : Context) (facts : List Pred) (r : Rule) : Prop :=
  ∃ a, r.pos = [a] ∧ r.neg = [] ∧ a.pred ∉ facts ∧ ctx.isOutputPredicate a.pred = false

/-- What `add_rule` does to the visitors, the indices and `can_expand`. -/
lemma addRule_fields (ctx : Context) (facts : List Pred) (s : LinearState) (r : Rule) (i : Nat) :
    (s.addRule ctx facts r i).headPositions = Positions.addPosition r.head i s.headPositions ∧
    (s.addRule ctx facts r i).tailPositions =
      (r.pos ++ r.neg).foldl (fun m t => Positions.addPosition t i m) s.tailPositions ∧
    (s.addRule ctx facts r i).headIndex = s.headIndex.insert r.head ∧
    (s.addRule ctx facts r i).tailIndex = (r.pos ++ r.neg).foldl (fun ix t => ix.insert t) s.tailIndex ∧
    ∃ c, (s.addRule ctx facts r i).canExpand = s.canExpand.set i c ∧
      (c = true → ExpandShape ctx facts r) := by
  unfold addRule
  dsimp only
  split_ifs <;> rw [foldl_addTail_eq] <;> refine ⟨rfl, rfl, rfl, rfl, _, rfl, fun hc => ?_⟩ <;>
  · split at hc
    · rename_i a hp hn
      simp only [Bool.and_eq_true, Bool.not_eq_true', decide_eq_false_iff_not] at hc
      exact ⟨a, hp, hn, hc.1, hc.2⟩
    · cases hc

lemma nodup_foldl_insert : ∀ (l : List Atom) {ix : List Atom}, ix.Nodup →
    (l.foldl (fun ix t => ix.insert t) ix).Nodup
  | [], _, h => h
  | _ :: l, _, h => nodup_foldl_insert l h.insert

/-- `add_rule` at a free position registers the rule there. -/
lemma RegisteredAs.addRule {s : LinearState} {reg : Nat → Option Rule} (h : s.RegisteredAs reg)
    {i : Nat} (hi : reg i = none) (ctx : Context) (facts : List Pred) (r : Rule) :
    (s.addRule ctx facts r i).RegisteredAs (Function.update reg i (some r)) := by
  obtain ⟨hhp, htp, hhi, hti, -⟩ := addRule_fields ctx facts s r i
  refine ⟨fun k e => ?_, fun k e => ?_, fun k r' hk => ?_, fun k r' hk => ?_, ?_, ?_⟩
  · rw [hhp, Positions.count_find_addPosition, h.head]
    by_cases hk : k = i
    · subst hk; simp [headCount, hi]
    · simp [headCount, hk]
  · rw [htp, Positions.count_find_foldl_addPosition, h.tail]
    by_cases hk : k = i
    · subst hk; simp [tailCount, hi]
    · simp [tailCount, hk]
  · rw [hhi, List.mem_insert_iff]
    by_cases hki : k = i
    · subst hki; simp only [Function.update_same, Option.some.injEq] at hk; subst hk; exact .inl rfl
    · rw [Function.update_noteq hki] at hk; exact .inr (h.headIndex k r' hk)
  · intro e he
    rw [hti, mem_foldl_insert]
    by_cases hki : k = i
    · subst hki; simp only [Function.update_same, Option.some.injEq] at hk; exact .inr (hk ▸ he)
    · rw [Function.update_noteq hki] at hk; exact .inl (h.tailIndex k r' hk e he)
  · exact hhi ▸ h.headNodup.insert
  · exact hti ▸ nodup_foldl_insert _ h.tailNodup

/-- `del_rule` with the rule registered at a position finds every entry it looks for and
unregisters the position. -/
lemma RegisteredAs.delRule {s : LinearState} {reg : Nat → Option Rule} (h : s.RegisteredAs reg)
    {i : Nat} {r : Rule} (hi : reg i = some r) :
    ∃ hp tp, s.delRule r i = .ok { s with headPositions := hp, tailPositions := tp } ∧
      RegisteredAs { s with headPositions := hp, tailPositions := tp } (Function.update reg i none) := by
  have hhead : i ∈ s.headPositions.find r.head :=
    List.count_pos_iff.mp (by rw [h.head]; simp [headCount, hi])
  obtain ⟨hp, hhp, hfind⟩ := Positions.delPosition_ok hhead
  obtain ⟨tp, htp, hcount⟩ := Positions.foldlM_delPosition_ok i (r.pos ++ r.neg) s.tailPositions
    fun e => by rw [h.tail]; simp [tailCount, hi]
  refine ⟨hp, tp, by simp [LinearState.delRule, hhp, htp], fun k e => ?_, fun k e => ?_,
    fun k r' hk => ?_, fun k r' hk => ?_, h.headNodup, h.tailNodup⟩
  · simp only [hfind]
    by_cases hk : k = i
    · subst hk
      by_cases he : e = r.head
      · subst he; simp [List.count_erase, h.head, headCount, hi]
      · simp [he, h.head, headCount, hi]
    · split_ifs with he
      · subst he; simp [List.count_erase, Ne.symm hk, h.head, headCount, hk]
      · simp [h.head, headCount, hk]
  · simp only [hcount, h.tail]
    by_cases hk : k = i
    · subst hk; simp [tailCount, hi]
    · simp [tailCount, hk]
  · by_cases hki : k = i
    · subst hki; simp at hk
    · rw [Function.update_noteq hki] at hk; exact h.headIndex k r' hk
  · by_cases hki : k = i
    · subst hki; simp at hk
    · rw [Function.update_noteq hki] at hk; exact h.tailIndex k r' hk

end LinearState

/-! ## The invariant of the driver -/

namespace LinearState

/-- The invariant of the driver: the visitors hold exactly the valid rules, `can_expand` holds
only of rules of its shape, the valid rules have dense variables, and `valid` covers `acc`. -/
structure Registered (ctx : Context) (facts : List Pred) (s : LinearState) : Prop where
  visitors : s.RegisteredAs (validRules s.acc s.valid)
  expand : ∀ k : Nat, s.canExpand[k]! = true → ExpandShape ctx facts s.acc[k]!
  normal : ∀ k : Nat, s.valid[k]! = true → s.acc[k]!.normVars = s.acc[k]!
  length : s.valid.length = s.acc.length

/-- A resolvent of two rules of the shape `can_expand` stands for has that shape. -/
lemma ExpandShape.resolvent {ctx : Context} {facts : List Pred} {r r₂ res : Rule}
    {cv cv' : Converters} (hr : ExpandShape ctx facts r) (hr₂ : ExpandShape ctx facts r₂)
    (h : tryToInlineRule ctx cv r r₂ 0 = (some res, cv')) : ExpandShape ctx facts res := by
  obtain ⟨a, hpa, hna, -, -⟩ := hr
  obtain ⟨b, hpb, hnb, hbf, hbo⟩ := hr₂
  obtain ⟨-, -, -, hpos, hneg⟩ := tryToInlineRule_shape h
  have hsub := tryToInlineRule_pos_subset h
  rw [hpa, hpb] at hpos hsub
  rw [hna, hnb] at hneg
  simp only [List.map_cons, List.map_nil, List.eraseIdx_cons_zero, List.nil_append,
    List.append_nil, List.sublist_nil, List.map_eq_nil_iff, List.cons_subset, List.nil_subset,
    and_true] at hpos hsub hneg
  rcases List.sublist_singleton.mp hpos with h0 | h1
  · rw [h0] at hsub
    exact absurd hsub (List.not_mem_nil _)
  · obtain ⟨b', hb', hpred⟩ : ∃ b', res.pos = [b'] ∧ b'.pred = b.pred := by
      rcases hres : res.pos with _ | ⟨b', _ | _⟩ <;> simp_all
    exact ⟨b', hb', hneg, hpred ▸ hbf, hpred ▸ hbo⟩

lemma getElem!_replicate_true (n k : Nat) : (List.replicate n true)[k]! = decide (k < n) := by
  by_cases hk : k < n
  · rw [getElem!_pos _ k (by simpa using hk), List.getElem_replicate]; simp [hk]
  · rw [getElem!_neg _ k (by simpa using hk)]; simp [hk]

/-- Registering the first `m` rules in turn, from a state that registers none. -/
lemma registeredAs_foldl_addRule {ctx : Context} {facts : List Pred} {rules : RuleSet}
    {s₀ : LinearState} (h₀ : s₀.RegisteredAs fun _ => none)
    (hlen : s₀.canExpand.length = rules.length) : ∀ m ≤ rules.length,
      ((List.range m).foldl (fun s i => s.addRule ctx facts rules[i]! i) s₀).RegisteredAs
        (fun k => if k < m then some rules[k]! else none) ∧
      ((List.range m).foldl (fun s i => s.addRule ctx facts rules[i]! i) s₀).canExpand.length =
        rules.length ∧
      ∀ k < m, ((List.range m).foldl (fun s i => s.addRule ctx facts rules[i]! i) s₀).canExpand[k]! =
        true → ExpandShape ctx facts rules[k]!
  | 0, _ => ⟨h₀.congr (funext fun k => by simp), hlen, fun k hk => absurd hk (Nat.not_lt_zero k)⟩
  | m + 1, hm => by
    obtain ⟨hreg, hlen', hexp⟩ := registeredAs_foldl_addRule h₀ hlen m (by omega)
    simp only [List.range_succ, List.foldl_append, List.foldl_cons, List.foldl_nil]
    obtain ⟨-, -, -, -, c, hc, hshape⟩ := addRule_fields ctx facts _ rules[m]! m
    refine ⟨(hreg.addRule (by simp) ctx facts rules[m]!).congr (funext fun k => ?_),
      by rw [hc, List.length_set, hlen'], fun k hk => ?_⟩
    · by_cases hkm : k = m
      · subst hkm; simp
      · simp only [Function.update_noteq hkm, Nat.lt_succ_iff_lt_or_eq, hkm, or_false]
    · rw [hc, getElem!_set]
      split_ifs with h
      · obtain ⟨rfl, -⟩ := h
        exact hshape
      · exact hexp k (by omega)

/-- The set-up registers every rule at its position. -/
lemma registered_linearInit {ctx : Context} {facts : List Pred} {rules : RuleSet}
    (hdense : ∀ r ∈ rules, r.DenseVars) (cv : Converters) :
    (linearInit ctx facts cv rules).Registered ctx facts := by
  have h₀ : RegisteredAs ⟨rules, List.replicate rules.length true, List.replicate rules.length true,
      List.replicate rules.length true, [], [], [], [], cv, false⟩ fun _ => none :=
    ⟨fun k e => by simp [headCount, Positions.find], fun k e => by simp [tailCount, Positions.find],
      fun _ _ h => (by cases h), fun _ _ h => (by cases h), List.nodup_nil, List.nodup_nil⟩
  obtain ⟨hreg, hlen, hexp⟩ :=
    @registeredAs_foldl_addRule ctx facts rules _ h₀ (List.length_replicate _ _) rules.length le_rfl
  have hvalid : validRules rules (List.replicate rules.length true) =
      fun k => if k < rules.length then some rules[k]! else none := by
    funext k
    simp [validRules, getElem!_replicate_true]
  refine ⟨?_, fun k hk => ?_, fun k hk => ?_, by simp⟩
  · simp only [linearInit_acc, linearInit_valid, hvalid]
    exact hreg
  · simp only [linearInit_acc]
    by_cases hkl : k < rules.length
    · exact hexp k hkl hk
    · rw [getElem!_neg _ k (by simpa [linearInit, hlen] using hkl)] at hk
      cases hk
  · simp only [linearInit_valid, getElem!_replicate_true, decide_eq_true_eq] at hk
    simp only [linearInit_acc]
    exact Rule.normVars_eq_self (hdense _ (by rw [getElem!_pos rules k hk]; exact List.getElem_mem hk))

end LinearState

/-! ## One pass of the loop body -/

namespace LinearState

variable {ctx : Context} {facts : List Pred}

/-- Invalidating a valid rule and unregistering it (the end of a pass with one tail unifier)
finds every entry and keeps the invariant. -/
lemma Registered.invalidate {s : LinearState} (h : s.Registered ctx facts) {j : Nat} {r : Rule}
    (hj : validRules s.acc s.valid j = some r) (x : Converters) :
    ∃ s', ({ s with valid := s.valid.set j false, cv := x } : LinearState).delRule r j = .ok s' ∧
      s'.Registered ctx facts := by
  have hvj : s.valid[j]! = true := by
    by_contra hv
    simp [validRules, hv] at hj
  obtain ⟨hp, tp, hdel, hreg⟩ := @RegisteredAs.delRule { s with valid := s.valid.set j false, cv := x }
    (validRules s.acc s.valid) (h.visitors.of_eq rfl rfl rfl rfl) j r hj
  refine ⟨_, hdel, hreg.congr (validRules_set_valid (lt_length_of_getElem! hvj)).symm, h.expand,
    fun k hk => h.normal k ?_, by simp [h.length]⟩
  simp only [getElem!_set] at hk
  split_ifs at hk
  exact hk

/-- Replacing a valid expandable rule by its resolvent with another valid rule (the middle of a
pass) finds every entry `del_rule` looks for and keeps the invariant. -/
lemma Registered.resolve (hctx : ctx.KeepsDense) {s : LinearState} (h : s.Registered ctx facts)
    {i j : Nat} (hvi : s.valid[i]! = true) (hci : s.canExpand[i]! = true) (hij : i ≠ j) {rlRes : Rule} {cv' : Converters}
    (hres : tryToInlineRule ctx s.cv s.acc[i]! s.acc[j]! 0 = (some rlRes, cv')) :
    ∃ s₂, s.delRule s.acc[i]! i = .ok s₂ ∧ ∀ s₃ : LinearState, s₃ = s₂.addRule ctx facts rlRes i →
      Registered ctx facts
        { s₃ with acc := s₃.acc.set i rlRes, canExpand := s₃.canExpand.set i s₃.canExpand[j]!,
                  cv := cv', doneSomething := true } := by
  have hi : i < s.acc.length := h.length ▸ lt_length_of_getElem! hvi
  obtain ⟨hp, tp, hdel, hreg₂⟩ := h.visitors.delRule (i := i) (r := s.acc[i]!) (by simp [validRules, hvi])
  refine ⟨_, hdel, fun s₃ hs₃ => ?_⟩
  obtain ⟨-, -, -, -, c, hc, hshape⟩ :=
    addRule_fields ctx facts { s with headPositions := hp, tailPositions := tp } rlRes i
  have hacc : s₃.acc = s.acc := hs₃ ▸ addRule_acc ..
  have hvalid : s₃.valid = s.valid := hs₃ ▸ addRule_valid ..
  have hce : s₃.canExpand = s.canExpand.set i c := hs₃ ▸ hc
  refine ⟨((hreg₂.addRule (i := i) (by simp) ctx facts rlRes).of_eq (by rw [hs₃]) (by rw [hs₃])
    (by rw [hs₃]) (by rw [hs₃])).congr ?_, fun k hk => ?_, fun k hk => ?_, ?_⟩
  · rw [Function.update_idem, hacc, hvalid, validRules_set_acc hi hvi]
  · have hci' : i < s.canExpand.length := lt_length_of_getElem! hci
    simp only [hce, hacc, getElem!_set, List.length_set, hci', hi, and_true] at hk ⊢
    split_ifs at hk ⊢ with hik
    · subst hik
      exact (h.expand i hci).resolvent (h.expand j hk) hres
    · exact h.expand k hk
  · simp only [hacc, hvalid, getElem!_set, hi, and_true] at hk ⊢
    split_ifs with hik
    · exact Rule.normVars_eq_self (tryToInlineRule_denseVars hctx hres)
    · exact h.normal k hk
  · simp [hacc, hvalid, h.length]

/-- One pass of the loop body from a registered state succeeds, so every `del_position` it makes
finds its entry, and leaves a registered state. -/
lemma Registered.step (hctx : ctx.KeepsDense) {s : LinearState} (h : s.Registered ctx facts)
    (ab : Bool) (i : Nat) : ∃ b s', linearStep ctx facts ab i s = .ok (b, s') ∧ s'.Registered ctx facts := by
  unfold linearStep
  dsimp only
  split
  · exact ⟨false, s, rfl, h⟩
  rename_i hvc
  simp only [Bool.or_eq_true, Bool.not_eq_true', not_or, Bool.not_eq_false] at hvc
  obtain ⟨hvi, hci⟩ := hvc
  split
  swap
  · exact ⟨false, s, rfl, h⟩
  rename_i j _
  split
  · exact ⟨false, s, rfl, h⟩
  rename_i hj
  simp only [Bool.or_eq_true, Bool.not_eq_true', not_or, Bool.not_eq_false, decide_eq_true_eq] at hj
  obtain ⟨⟨-, hvj⟩, hij⟩ := hj
  split
  · exact ⟨false, s, rfl, h⟩
  have hs : ({ s with acc := s.acc } : LinearState) = s := rfl
  rw [h.normal i hvi, set_getElem!_self, hs]
  split
  · exact ⟨false, s, rfl, h⟩
  rename_i rlRes hres
  obtain ⟨s₂, hdel, h₄⟩ := h.resolve hctx hvi hci hij (Prod.ext hres rfl)
  rw [hdel]
  dsimp only
  have h₄ := h₄ _ rfl
  split
  · have hj' : validRules ((s₂.addRule ctx facts rlRes i).acc.set i rlRes)
        (s₂.addRule ctx facts rlRes i).valid j = some s.acc[j]! := by
      obtain ⟨_, _, rfl⟩ := delRule_eq hdel
      simp [validRules, getElem!_set, hij, hvj]
    obtain ⟨s₆, hdel₆, hreg₆⟩ := h₄.invalidate hj' _
    exact ⟨true, s₆, congrArg (Except.map fun s => (true, s)) hdel₆, hreg₆⟩
  · exact ⟨true, _, rfl, h₄⟩

end LinearState

/-! ## The queries -/

/-- Over a duplicate-free list holding `x`, the terms of `x` alone sum to `c`. -/
lemma sum_map_ite_eq {I : List Atom} (hI : I.Nodup) {x : Atom} (hx : x ∈ I) (c : Nat) :
    (I.map fun a => if a = x then c else 0).sum = c := by
  induction I with
  | nil => exact absurd hx (List.not_mem_nil _)
  | cons y I ih =>
    obtain ⟨hy, hI⟩ := List.nodup_cons.mp hI
    rw [List.map_cons, List.sum_cons]
    by_cases hyx : y = x
    · subst hyx
      rw [if_pos rfl, List.sum_eq_zero fun n hn => ?_, add_zero]
      obtain ⟨a, ha, rfl⟩ := List.mem_map.mp hn
      exact if_neg fun (h : a = y) => hy (h ▸ ha)
    · rw [if_neg hyx, ih hI ((List.mem_cons.mp hx).resolve_left (Ne.symm hyx)), zero_add]

/-- Over a duplicate-free list holding every element of `T`, the counts in `T` of the elements
satisfying `P` sum to the number of elements of `T` satisfying `P`. -/
lemma sum_map_count {I : List Atom} (hI : I.Nodup) (P : Atom → Bool) :
    ∀ {T : List Atom}, (∀ x ∈ T, x ∈ I) →
      (I.map fun a => if P a then T.count a else 0).sum = (T.filter P).length
  | [], _ => by simp
  | x :: T, hT => by
    have hpt : ∀ a, (if P a then (x :: T).count a else 0) =
        (if P a then T.count a else 0) + if a = x then (if P x then 1 else 0) else 0 := fun a => by
      by_cases hax : a = x
      · subst hax; cases P a <;> simp
      · simp [List.count_cons, hax, Ne.symm hax]
    simp only [hpt, List.sum_map_add, sum_map_count hI P fun y hy => hT y (List.mem_cons_of_mem _ hy),
      sum_map_ite_eq hI (hT x (List.mem_cons_self _ _)), List.filter_cons]
    split <;> simp [*]

lemma count_queryIndex (ctx : Context) (index : List Atom) (m : Positions) (e : Atom) (k : Nat) :
    (queryIndex ctx index m e).count k =
      (index.map fun a => if ctx.unifiable e a then (m.find a).count k else 0).sum := by
  rw [queryIndex, List.count_flatMap]
  exact congrArg List.sum (List.map_congr_left fun a _ => by by_cases h : ctx.unifiable e a <;> simp [h])

lemma headCount_validRules (acc : List Rule) (valid : List Bool) (k : Nat) (e : Atom) :
    headCount (validRules acc valid) k e = if valid[k]! = true ∧ e = acc[k]!.head then 1 else 0 := by
  by_cases hv : valid[k]! = true <;> simp [headCount, validRules, hv]

lemma tailCount_validRules (acc : List Rule) (valid : List Bool) (k : Nat) (e : Atom) :
    tailCount (validRules acc valid) k e =
      if valid[k]! = true then (acc[k]!.pos ++ acc[k]!.neg).count e else 0 := by
  by_cases hv : valid[k]! = true <;> simp [tailCount, validRules, hv]

namespace LinearState

variable {ctx : Context} {facts : List Pred}

/-- The head query counts position `k` once if its rule is valid and its head unifies, and not
at all otherwise. -/
lemma Registered.count_queryIndex_head {s : LinearState} (h : s.Registered ctx facts) (e : Atom)
    (k : Nat) : (queryIndex ctx s.headIndex s.headPositions e).count k =
      if s.valid[k]! = true ∧ ctx.unifiable e s.acc[k]!.head = true then 1 else 0 := by
  rw [count_queryIndex]
  simp only [h.visitors.head, headCount_validRules]
  by_cases hv : s.valid[k]! = true
  · have hterm : ∀ a, (if ctx.unifiable e a = true then (if a = s.acc[k]!.head then 1 else 0)
        else 0) = if a = s.acc[k]!.head then
          (if ctx.unifiable e s.acc[k]!.head = true then 1 else 0) else 0 := fun a => by
      by_cases ha : a = s.acc[k]!.head <;> simp [ha]
    simp only [hv, true_and, hterm]
    exact sum_map_ite_eq h.visitors.headNodup
      (h.visitors.headIndex k s.acc[k]! (by simp [validRules, hv])) _
  · simp [hv]

/-- The tail query counts position `k` once per tail atom of its rule that unifies, if the rule
is valid, and not at all otherwise. -/
lemma Registered.count_queryIndex_tail {s : LinearState} (h : s.Registered ctx facts) (e : Atom)
    (k : Nat) : (queryIndex ctx s.tailIndex s.tailPositions e).count k =
      if s.valid[k]! = true then ((s.acc[k]!.pos ++ s.acc[k]!.neg).filter (ctx.unifiable e)).length
      else 0 := by
  rw [count_queryIndex]
  simp only [h.visitors.tail, tailCount_validRules]
  by_cases hv : s.valid[k]! = true
  · simp only [hv, if_true]
    exact sum_map_count h.visitors.tailNodup _
      (h.visitors.tailIndex k s.acc[k]! (by simp [validRules, hv]))
  · simp [hv]

/-! ## Runs of the driver -/

variable {ab : Bool} {i : Nat}

lemma Registered.linearLoop (hctx : ctx.KeepsDense) :
    ∀ {n : Nat} {s : LinearState}, s.Registered ctx facts →
      (∀ e, RuleInliner.linearLoop ctx facts ab i n s = .error e → e = .outOfFuel) ∧
      ∀ s', RuleInliner.linearLoop ctx facts ab i n s = .ok s' → s'.Registered ctx facts
  | 0, _, _ => ⟨fun _ h => by cases h; rfl, fun _ h => (nomatch h)⟩
  | n + 1, s, hs => by
    obtain ⟨b, s₁, hstep, hs₁⟩ := hs.step hctx ab i
    rw [RuleInliner.linearLoop, hstep]
    cases b
    · exact ⟨fun _ h => (nomatch h), fun _ h => by cases h; exact hs₁⟩
    · exact Registered.linearLoop hctx hs₁

lemma Registered.linearDriver_error (hctx : ctx.KeepsDense) (fuel : Nat) :
    ∀ (is : List Nat) {s : LinearState}, s.Registered ctx facts → ∀ {e},
      linearDriver ctx fuel facts ab is s = .error e → e = .outOfFuel
  | [], _, _, _, h => by cases h
  | i :: is, s, hs, e, h => by
    rw [linearDriver] at h
    split at h
    · cases h
      exact (hs.linearLoop hctx).1 _ ‹_›
    · exact Registered.linearDriver_error hctx fuel is ((hs.linearLoop hctx).2 _ ‹_›) h

end LinearState

/-- The states the driver's `while (true)` loops start an iteration from: the state after the
set-up, and every state one pass of the loop body leads to, at any position. -/
inductive LinearReach (ctx : Context) (facts : List Pred) (ab : Bool) (cv : Converters)
    (rules : RuleSet) : LinearState → Prop
  | init : LinearReach ctx facts ab cv rules (linearInit ctx facts cv rules)
  | step {s s' : LinearState} {i : Nat} {b : Bool} : LinearReach ctx facts ab cv rules s →
      linearStep ctx facts ab i s = .ok (b, s') → LinearReach ctx facts ab cv rules s'

open LinearState in
/-- For every rule set whose rules have dense variables, and collaborators that keep variables
dense, at the start of every iteration of the driver and for every position `k`: the head
visitor holds `k` exactly once, under the head of `acc[k]`, if `valid[k]`, and not at all
otherwise; the tail visitor holds `k` under each atom as often as the atom occurs in the
uninterpreted tail of `acc[k]` if `valid[k]`, and not at all otherwise; and `can_expand[k]`
implies that `acc[k]` has one uninterpreted tail atom, positive, over a predicate that is neither
an output predicate nor backed by facts. Hence the next pass succeeds (every `del_position` finds
its entry), the head query counts `k` once exactly when `acc[k]` is valid and its head unifies,
the tail query counts `k` once per unifying tail atom of a valid `acc[k]`, and the driver fails
only by running out of fuel. -/
theorem linear_visitors_registered {ctx : Context} {facts : List Pred} {ab : Bool} {cv : Converters}
    {rules : RuleSet} (hctx : ctx.KeepsDense) (hdense : ∀ r ∈ rules, r.DenseVars) :
    (∀ s, LinearReach ctx facts ab cv rules s →
      (∀ (k : Nat) (e : Atom), (s.headPositions.find e).count k =
        if s.valid[k]! = true ∧ e = s.acc[k]!.head then 1 else 0) ∧
      (∀ (k : Nat) (e : Atom), (s.tailPositions.find e).count k =
        if s.valid[k]! = true then (s.acc[k]!.pos ++ s.acc[k]!.neg).count e else 0) ∧
      (∀ k : Nat, s.canExpand[k]! = true → ∃ a, s.acc[k]!.pos = [a] ∧ s.acc[k]!.neg = [] ∧
        a.pred ∉ facts ∧ ctx.isOutputPredicate a.pred = false) ∧
      (∀ i, ∃ b s', linearStep ctx facts ab i s = .ok (b, s')) ∧
      (∀ (e : Atom) (k : Nat), (queryIndex ctx s.headIndex s.headPositions e).count k =
        if s.valid[k]! = true ∧ ctx.unifiable e s.acc[k]!.head = true then 1 else 0) ∧
      (∀ (e : Atom) (k : Nat), (queryIndex ctx s.tailIndex s.tailPositions e).count k =
        if s.valid[k]! = true then ((s.acc[k]!.pos ++ s.acc[k]!.neg).filter (ctx.unifiable e)).length
        else 0)) ∧
    ∀ fuel is e, linearDriver ctx fuel facts ab is (linearInit ctx facts cv rules) = .error e →
      e = .outOfFuel := by
  have hreach : ∀ s, LinearReach ctx facts ab cv rules s → s.Registered ctx facts := by
    intro s hs
    induction hs with
    | init => exact registered_linearInit hdense cv
    | @step s s' i b _ hstep ih =>
      obtain ⟨_, _, hstep', hreg⟩ := ih.step hctx ab i
      rw [hstep] at hstep'
      cases hstep'
      exact hreg
  refine ⟨fun s hs => ?_, fun fuel is e h =>
    (registered_linearInit hdense cv).linearDriver_error hctx fuel is h⟩
  have h := hreach s hs
  refine ⟨fun k e => by rw [h.visitors.head, headCount_validRules],
    fun k e => by rw [h.visitors.tail, tailCount_validRules], h.expand, fun i => ?_,
    h.count_queryIndex_head, h.count_queryIndex_tail⟩
  obtain ⟨b, s', hs', -⟩ := h.step hctx ab i
  exact ⟨b, s', hs'⟩

/-- On `H(x) :- Q(x).` and `Q(x) :- Q(x).`, with branching. -/
theorem linear_visitors_registered_selfLoop :
    (loopContext true).KeepsDense ∧ (∀ r ∈ selfLoopRules, r.DenseVars) ∧
    (∀ s, LinearReach (loopContext true) [] true Inliner.init.cv selfLoopRules s →
      (∀ (k : Nat) (e : Atom), (s.headPositions.find e).count k =
        if s.valid[k]! = true ∧ e = s.acc[k]!.head then 1 else 0) ∧
      (∀ (k : Nat) (e : Atom), (s.tailPositions.find e).count k =
        if s.valid[k]! = true then (s.acc[k]!.pos ++ s.acc[k]!.neg).count e else 0) ∧
      (∀ k : Nat, s.canExpand[k]! = true → ∃ a, s.acc[k]!.pos = [a] ∧ s.acc[k]!.neg = [] ∧
        a.pred ∉ ([] : List Pred) ∧ (loopContext true).isOutputPredicate a.pred = false) ∧
      (∀ i, ∃ b s', linearStep (loopContext true) [] true i s = .ok (b, s')) ∧
      (∀ (e : Atom) (k : Nat),
        (queryIndex (loopContext true) s.headIndex s.headPositions e).count k =
          if s.valid[k]! = true ∧ (loopContext true).unifiable e s.acc[k]!.head = true then 1
          else 0) ∧
      (∀ (e : Atom) (k : Nat),
        (queryIndex (loopContext true) s.tailIndex s.tailPositions e).count k =
          if s.valid[k]! = true then
            ((s.acc[k]!.pos ++ s.acc[k]!.neg).filter ((loopContext true).unifiable e)).length
          else 0)) ∧
    ∀ fuel is e, linearDriver (loopContext true) fuel [] true is
        (linearInit (loopContext true) [] Inliner.init.cv selfLoopRules) = .error e →
      e = .outOfFuel :=
  ⟨Context.reference_keepsDense _ _ _, by decide,
    linear_visitors_registered (Context.reference_keepsDense _ _ _) (by decide)⟩

end RuleInliner
