import RuleInliner.Close

/-!
# Running one object twice

Nothing in `dl_mk_rule_inliner.cpp` clears the planner's state: `count_pred_occurrences` adds
to the counters and predicate sets the object already holds, and `plan_inlining` appends to
`m_inlined_rules`, of which it only `SASSERT`s that it is empty. `run_grows` says so for every
run: the state an object leaves holds all it held before, so a predicate the object would not
inline before a run it does not inline after it either (`Grows.allowed`). A second run on the
same object therefore plans with the first run's counts and finds the first run's rules in
`m_inlined_rules`; `run_reused_object_differs` is a rule set on which the second run returns
another rule set than a fresh object does.
-/

namespace RuleInliner

lemma Counter.le_inc (c : Counter) (q p : Pred) : c p ≤ c.inc q p := by
  unfold Counter.inc; split_ifs <;> omega

lemma Counter.le_foldl_inc (p : Pred) : ∀ (l : List Pred) (c : Counter), c p ≤ l.foldl Counter.inc c p
  | [], _ => le_rfl
  | q :: l, c => (c.le_inc q p).trans (Counter.le_foldl_inc p l _)

namespace Inliner

/-- `st'` holds everything `st` holds: the rules of `m_inlined_rules` as a prefix, the
predicate sets, and counts at least as high. -/
structure Grows (st st' : Inliner) : Prop where
  inlined : List.IsPrefix st.inlinedRules st'.inlinedRules
  negOcc : st.predsWithNegOccurrence ⊆ st'.predsWithNegOccurrence
  facts : st.predsWithFacts ⊆ st'.predsWithFacts
  forbidden : st.forbiddenPreds ⊆ st'.forbiddenPreds
  head : ∀ p, st.headPredCtr p ≤ st'.headPredCtr p
  tail : ∀ p, st.tailPredCtr p ≤ st'.tailPredCtr p

lemma Grows.rfl' (st : Inliner) : Grows st st :=
  ⟨List.prefix_refl _, List.Subset.refl _, List.Subset.refl _, List.Subset.refl _,
    fun _ => le_rfl, fun _ => le_rfl⟩

lemma Grows.trans {st₁ st₂ st₃ : Inliner} (h₁ : Grows st₁ st₂) (h₂ : Grows st₂ st₃) :
    Grows st₁ st₃ :=
  ⟨h₁.1.trans h₂.1, h₁.2.trans h₂.2, h₁.3.trans h₂.3, h₁.4.trans h₂.4,
    fun p => (h₁.5 p).trans (h₂.5 p), fun p => (h₁.6 p).trans (h₂.6 p)⟩

lemma Frame.grows {st st' : Inliner} (h : Frame st st') : Grows st st' :=
  ⟨h.inlined ▸ List.prefix_refl _, h.negOcc ▸ List.Subset.refl _,
    h.facts ▸ List.Subset.refl _, h.forbidden, h.head, fun _ => h.tail ▸ le_rfl⟩

/-- Higher counts and larger predicate sets never make a predicate admissible. -/
lemma Grows.allowed {ctx : Context} {st st' : Inliner} (h : Grows st st') {q : Pred}
    (hq : st'.inliningAllowed ctx q = true) : st.inliningAllowed ctx q = true := by
  have hh := h.head q
  have ht := h.tail q
  simp only [inliningAllowed, Bool.and_eq_true, Bool.not_eq_true', Bool.or_eq_false_iff,
    Bool.or_eq_true, decide_eq_true_eq, decide_eq_false_iff_not] at hq ⊢
  obtain ⟨⟨⟨⟨ho, hF⟩, hN⟩, hB⟩, hb⟩ := hq
  exact ⟨⟨⟨⟨ho, fun hm => hF (h.facts hm)⟩, fun hm => hN (h.negOcc hm)⟩,
    fun hm => hB (h.forbidden hm)⟩, by omega⟩

lemma grows_countRule (st : Inliner) (r : Rule) : Grows st (st.countRule r) :=
  ⟨List.prefix_refl _, fun _ h => (mem_foldl_insert _ _).mpr (.inl h), List.Subset.refl _,
    List.Subset.refl _, fun p => st.headPredCtr.le_inc r.decl p,
    fun p => Counter.le_foldl_inc p r.tailPreds st.tailPredCtr⟩

lemma grows_foldl_countRule : ∀ (orig : RuleSet) (st : Inliner), Grows st (orig.foldl countRule st)
  | [], st => Grows.rfl' st
  | r :: orig, st => (grows_countRule st r).trans (grows_foldl_countRule orig _)

lemma grows_countPredOccurrences (ctx : Context) (st : Inliner) (orig : RuleSet) :
    Grows st (st.countPredOccurrences ctx orig) := by
  have hfacts : Grows st
      { st with
        predsWithFacts := ctx.nonEmptyPredicates.foldl (fun s p => s.insert p) st.predsWithFacts } :=
    ⟨List.prefix_refl _, List.Subset.refl _, fun _ h => (mem_foldl_insert _ _).mpr (.inl h),
      List.Subset.refl _, fun _ => le_rfl, fun _ => le_rfl⟩
  exact hfacts.trans (grows_foldl_countRule orig _)

lemma grows_with_cv (st : Inliner) (cv : Converters) : Grows st { st with cv := cv } :=
  ⟨List.prefix_refl _, List.Subset.refl _, List.Subset.refl _, List.Subset.refl _,
    fun _ => le_rfl, fun _ => le_rfl⟩

end Inliner

open Inliner

/-- `transform_rule` only appends to its target. -/
lemma transformRuleLoop_extends {ctx : Context} {st : Inliner} {self : Bool} :
    ∀ {n todo tgt modified cv out}, transformRuleLoop ctx st self n todo tgt modified cv = .ok out →
      List.IsPrefix tgt out.1
  | 0, _, _, _, _, _, h => by cases h
  | n + 1, [], tgt, _, _, _, h => by cases h; exact List.prefix_refl _
  | n + 1, r :: todo, tgt, modified, cv, out, h => by
    rcases @transformRuleLoop_cons_cases ctx st self r with
      ⟨-, e⟩ | ⟨-, -, e⟩ | ⟨-, i, hi, -, e⟩ <;> rw [e] at h
    · exact transformRuleLoop_extends h
    · exact (List.prefix_append _ _).trans (transformRuleLoop_extends h)
    · exact transformRuleLoop_extends h

lemma grows_fill {ctx : Context} {fuel : Nat} {cand : RuleSet} {st st' : Inliner}
    (h : fill ctx fuel cand st = .ok st') : Grows st st' := by
  refine fill_invariant (Grows st) (fun b r b' hb _ h => ?_) (Grows.rfl' st) h
  obtain ⟨_, _, _, hrun, rfl⟩ := fillRule_eq_ok h
  exact hb.trans ⟨transformRuleLoop_extends hrun, List.Subset.refl _, List.Subset.refl _,
    List.Subset.refl _, fun _ => le_rfl, fun _ => le_rfl⟩

lemma grows_planInlining {ctx : Context} {fuel : Nat} {st st' : Inliner} {orig : RuleSet}
    (h : st.planInlining ctx fuel orig = .ok st') : Grows st st' := by
  obtain ⟨_, _, heq, h⟩ := planInlining_eq_ok h
  exact ((grows_countPredOccurrences ctx st orig).trans (frame_planCandidates heq).grows).trans
    (grows_fill h)

/-- The chain `Out(x) :- P(x)`, `P(x) :- B(x)`. -/
def chainRules : RuleSet :=
  [⟨⟨⟨0, 1⟩, [.var 0]⟩, [⟨⟨1, 1⟩, [.var 0]⟩], [], []⟩,
   ⟨⟨⟨1, 1⟩, [.var 0]⟩, [⟨⟨2, 1⟩, [.var 0]⟩], [], []⟩]

/-- `Out` is the output predicate and `B` has facts. -/
def chainContext : Context := Context.reference [⟨0, 1⟩] [⟨2, 1⟩] ⟨[]⟩

/-- No run clears any of the object's state: the object a run leaves holds every rule of
`m_inlined_rules`, every predicate of its sets and counts at least as high as before, so every
predicate it may inline after the run it could inline before. -/
theorem run_grows {ctx : Context} {fuel : Nat} {st st' : Inliner} {S : RuleSet}
    {mcReq pcReq : Bool} {res : Option RuleSet}
    (h : run ctx fuel st S mcReq pcReq = .ok (res, st')) :
    Grows st st' ∧ ∀ q, st'.inliningAllowed ctx q = true → st.inliningAllowed ctx q = true := by
  suffices hg : Grows st st' from ⟨hg, fun _ => hg.allowed⟩
  unfold run at h
  by_cases hempty : S = []
  · rw [if_pos hempty] at h; cases h; exact Grows.rfl' st
  rw [if_neg hempty] at h
  dsimp only at h
  split at h
  · cases h
  rename_i st₁ hplan
  have hg := (grows_with_cv st _).trans (grows_planInlining hplan)
  split at h
  · cases h
  split at h
  · cases h
  split at h
  · cases h
  split at h
  · cases h
  cases h
  exact hg.trans (grows_with_cv st₁ _)

/-- A fresh object run on `chainRules` inlines `P` and then holds `P`'s resolvents in
`m_inlined_rules`; every predicate it may still inline it could inline before. -/
theorem run_grows_chain :
    ∃ st₁, run chainContext 10 init chainRules true true =
        .ok (some [⟨⟨⟨0, 1⟩, [.var 0]⟩, [⟨⟨2, 1⟩, [.var 0]⟩], [], []⟩], st₁) ∧
      Grows init st₁ ∧
      ∀ q, st₁.inliningAllowed chainContext q = true → init.inliningAllowed chainContext q = true := by
  obtain ⟨st₁, h⟩ : ∃ st₁, run chainContext 10 init chainRules true true =
      .ok (some [⟨⟨⟨0, 1⟩, [.var 0]⟩, [⟨⟨2, 1⟩, [.var 0]⟩], [], []⟩], st₁) := ⟨_, rfl⟩
  exact ⟨st₁, h, run_grows h⟩

/-- A fresh object inlines `P` away from `chainRules`. The object that has already run on the
same set counts every rule twice, finds `P` inadmissible, enters `plan_inlining` with a
non-empty `m_inlined_rules`, and returns two rules. -/
theorem run_reused_object_differs :
    ∃ st₁, run chainContext 10 init chainRules true true =
        .ok (some [⟨⟨⟨0, 1⟩, [.var 0]⟩, [⟨⟨2, 1⟩, [.var 0]⟩], [], []⟩], st₁) ∧
      st₁.inlinedRules ≠ [] ∧
      (run chainContext 10 st₁ chainRules true true).map Prod.fst =
        .ok (some [⟨⟨⟨0, 1⟩, [.var 0]⟩, [⟨⟨2, 1⟩, [.var 0]⟩], [], []⟩,
          ⟨⟨⟨1, 1⟩, [.var 0]⟩, [⟨⟨2, 1⟩, [.var 0]⟩], [], []⟩]) :=
  ⟨_, rfl, by decide, rfl⟩

end RuleInliner
