import RuleInliner.Syntax.Paths
import RuleInliner.Stages

/-!
# The `VERIFY(res->close())` calls never fail

`create_allowed_rule_set` closes a subset of the input, and `operator()` closes the bulk
output; both `VERIFY` the result. Every rule the pass builds is *traced* in its input
(`Syntax/Paths.lean`): its edges are paths of the input with the polarity kept. A subset is
traced trivially; a resolvent is traced when both parents are (`traced_tryToInlineRule`),
since its new edges run through the resolved atom. Renumbering keeps a rule traced too, so
being traced is one of the properties every stage keeps (`ResolutionClosed`, `Stages.lean`):
every rule set the pass builds is traced in the input, and an input without negation cycles
gives sets without them, which close.

The stage lemmas are partial: they speak of the runs that return. Whether they return is
the business of the termination results.
-/

namespace RuleInliner

variable {R : RuleSet}

lemma Rule.atoms_normVars (r : Rule) (neg : Bool) :
    (r.normVars.atoms neg).map Atom.pred = (r.atoms neg).map Atom.pred := by
  cases neg <;> simp

/-- Renaming variables keeps a rule traced. -/
lemma Traced.normVars {r : Rule} (h : Traced R r) : Traced R r.normVars :=
  h.of_preds (Rule.normVars_decl r) fun neg _ ha =>
    List.mem_map.mp (Rule.atoms_normVars r neg ▸ List.mem_map_of_mem Atom.pred ha)

/-- A resolvent of two traced rules is traced: an edge it takes from the source rule is
the positive edge to the resolved atom followed by the source's edge. -/
lemma traced_tryToInlineRule {ctx : Context} {cv cv' : Converters} {r src res : Rule} {i : Nat}
    (h : tryToInlineRule ctx cv r src i = (some res, cv')) (hr : Traced R r)
    (hsrc : Traced R src) : Traced R res := by
  obtain ⟨hi, hpi, hd, hpos, hneg⟩ := tryToInlineRule_shape h
  have hcomb : ∀ neg q, ((∃ b ∈ r.atoms neg, b.pred = q) ∨ ∃ b ∈ src.atoms neg, b.pred = q) →
      PosPath R r.decl q neg := by
    rintro neg q (⟨b, hb, rfl⟩ | ⟨b, hb, rfl⟩)
    · exact hr neg b hb
    · exact (hpi ▸ hr false _ (List.getElem_mem hi)).append (hsrc neg b hb)
  intro neg a ha
  rw [hd]
  apply hcomb
  cases neg
  · have := hpos.subset (List.mem_map_of_mem Atom.pred ha)
    simp only [List.mem_append, List.mem_map] at this
    rcases this with h | h
    · exact .inl (List.mem_map.mp (List.mem_of_mem_eraseIdx h))
    · exact .inr h
  · have := hneg.subset (List.mem_map_of_mem Atom.pred ha)
    simpa only [List.mem_append, List.mem_map] using this

/-- Being traced in `R` is kept by renumbering and by resolution. -/
lemma tracedClosed (ctx : Context) : ResolutionClosed ctx (Traced R) :=
  ⟨Traced.normVars, traced_tryToInlineRule⟩

/-! ## The stages -/

/-- `create_allowed_rule_set` on an input without negation cycles succeeds. -/
theorem createAllowedRuleSet_ok {ctx : Context} (st : Inliner) (hR : NegCycleFree R) :
    st.createAllowedRuleSet ctx R = .ok (R.filter fun r => st.inliningAllowed ctx r.decl) := by
  have hsub : NegCycleFree (R.filter fun r => st.inliningAllowed ctx r.decl) :=
    hR.of_traced fun t ht => traced_of_mem (List.mem_filter.mp ht).1
  simp [Inliner.createAllowedRuleSet, close_iff.mpr hsub]

section
variable {ctx : Context} {fuel : Nat} {st : Inliner} {out : RuleSet × Bool × Converters}

lemma transformRules_traced (hinl : ∀ s ∈ st.inlinedRules, Traced R s) {rs tgt : RuleSet}
    {done : Bool} {cv : Converters} (hrs : ∀ r ∈ rs, Traced R r) (htgt : ∀ s ∈ tgt, Traced R s)
    (h : transformRules ctx fuel st rs tgt done cv = .ok out) : ∀ s ∈ out.1, Traced R s :=
  (tracedClosed ctx).transformRules hinl hrs htgt h

/-- The filled lookup set of `plan_inlining` is traced in the input. -/
lemma planInlining_traced {st' : Inliner} (h0 : ∀ s ∈ st.inlinedRules, Traced R s)
    (h : st.planInlining ctx fuel R = .ok st') : ∀ s ∈ st'.inlinedRules, Traced R s :=
  (tracedClosed ctx).planInlining (fun _ => traced_of_mem) h0 h

/-- Eager inlining keeps its input's rules traced. -/
lemma doEagerInlining_traced {rules : RuleSet} (hrules : ∀ c ∈ rules, Traced R c)
    (h : doEagerInlining ctx fuel st rules = .ok out) : ∀ s ∈ out.1, Traced R s :=
  (tracedClosed ctx).doEagerInlining hrules h

/-- Linear inlining keeps its input's rules traced. -/
lemma inlineLinear_traced {rules : RuleSet} (hrules : ∀ c ∈ rules, Traced R c)
    (h : inlineLinear ctx fuel st rules = .ok out) : ∀ s ∈ out.1, Traced R s :=
  (tracedClosed ctx).inlineLinear hrules h

end

/-! ## The errors a run can end with -/

section Errors
variable {ctx : Context} {e : PassError}

lemma transformRuleLoop_error {st : Inliner} {self : Bool} :
    ∀ {n todo tgt modified cv}, transformRuleLoop ctx st self n todo tgt modified cv = .error e →
      e = .outOfFuel
  | 0, _, _, _, _, h => by cases h; rfl
  | n + 1, [], _, _, _, h => by cases h
  | n + 1, r :: todo, tgt, modified, cv, h => by
    rcases @transformRuleLoop_cons_cases ctx st self r with
      ⟨-, heq⟩ | ⟨-, -, heq⟩ | ⟨-, i, hi, -, heq⟩ <;> rw [heq] at h <;> exact transformRuleLoop_error h

lemma transformRules_error {fuel : Nat} {st : Inliner} :
    ∀ {rs tgt done cv}, transformRules ctx fuel st rs tgt done cv = .error e → e = .outOfFuel
  | [], _, _, _, h => by cases h
  | r :: rs, tgt, done, cv, h => by
    rw [transformRules] at h
    split_ifs at h
    · exact transformRules_error h
    split at h
    · cases h; exact transformRuleLoop_error ‹_›
    · exact transformRules_error h

lemma fill_error {fuel : Nat} {cand : RuleSet} {st : Inliner}
    (h : Inliner.fill ctx fuel cand st = .error e) : e = .outOfFuel := by
  refine @foldlM_error _ _ _ _ (fun e => e = .outOfFuel) (fun b g e h => ?_) _ _ _ h
  cases g with
  | nil => cases h
  | cons p _ =>
    refine @foldlM_error _ _ _ _ (fun e => e = .outOfFuel) (fun b r e h => ?_) _ _ _ h
    unfold Inliner.fillRule at h
    split at h
    · cases h; exact transformRuleLoop_error ‹_›
    · cases h

lemma cycleLoop_error {orig : RuleSet} (hR : NegCycleFree orig) :
    ∀ {n st cand}, Inliner.cycleLoop ctx orig n st cand = .error e → e = .outOfFuel
  | 0, _, _, h => by cases h; rfl
  | n + 1, st, cand, h => by
    unfold Inliner.cycleLoop at h
    dsimp only at h
    split_ifs at h
    split at h
    · rename_i heq; rw [createAllowedRuleSet_ok _ hR] at heq; cases heq
    · exact cycleLoop_error hR h

lemma planInlining_error {fuel : Nat} {st : Inliner} (hR : NegCycleFree R)
    (h : st.planInlining ctx fuel R = .error e) : e = .outOfFuel := by
  unfold Inliner.planInlining at h
  split at h
  · cases h
    rename_i heq
    unfold Inliner.planCandidates at heq
    simp only [createAllowedRuleSet_ok _ hR, except_ok_bind] at heq
    cases hc : Inliner.cycleLoop ctx R fuel (st.countPredOccurrences ctx R)
      (R.filter fun r => (st.countPredOccurrences ctx R).inliningAllowed ctx r.decl) with
    | error e' => rw [hc] at heq; cases heq; exact cycleLoop_error hR hc
    | ok p =>
      rw [hc, except_ok_bind] at heq
      split_ifs at heq <;> cases heq
  · exact fill_error h

lemma eagerLoop_error {facts : List Pred} {rules : RuleSet} :
    ∀ {n r cv done}, eagerLoop ctx facts rules n r cv done = .error e → e = .outOfFuel
  | 0, _, _, _, h => by cases h; rfl
  | n + 1, r, cv, done, h => by
    rw [eagerLoop] at h
    split at h
    · cases h
    · cases h
    · exact eagerLoop_error h

lemma eagerRules_error {fuel : Nat} {facts : List Pred} {rules : RuleSet} :
    ∀ {rs res cv done}, eagerRules ctx fuel facts rules rs res cv done = .error e →
      e = .outOfFuel
  | [], _, _, _, h => by cases h
  | r :: rs, res, cv, done, h => by
    rw [eagerRules] at h
    split at h
    · cases h; exact eagerLoop_error ‹_›
    · exact eagerRules_error h

lemma doEagerInlining_error {fuel : Nat} {st : Inliner} {rules : RuleSet}
    (h : doEagerInlining ctx fuel st rules = .error e) : e = .outOfFuel := by
  unfold doEagerInlining at h
  split at h
  · cases h; exact eagerRules_error ‹_›
  · cases h

lemma linearLoop_error {facts : List Pred} {ab : Bool} {i : Nat} :
    ∀ {n s}, linearLoop ctx facts ab i n s = .error e → e = .outOfFuel ∨ e = .nullDeref
  | 0, _, h => by cases h; exact .inl rfl
  | n + 1, s, h => by
    rw [linearLoop] at h
    split at h
    · cases h; exact .inr (linearStep_error ‹_›)
    · exact linearLoop_error h
    · cases h

lemma inlineLinear_error {fuel : Nat} {st : Inliner} {rules : RuleSet}
    (h : inlineLinear ctx fuel st rules = .error e) : e = .outOfFuel ∨ e = .nullDeref := by
  unfold inlineLinear at h
  dsimp only at h
  split at h
  · cases h
    rename_i heq
    generalize List.range rules.length = is at heq
    generalize linearInit ctx st.predsWithFacts st.cv rules = s at heq
    induction is generalizing s with
    | nil => cases heq
    | cons i is ih =>
      rw [linearDriver] at heq
      split at heq
      · cases heq; exact linearLoop_error ‹_›
      · exact ih _ heq
  · split_ifs at h

end Errors

/-! ## The pass -/

/-- On an input without negation cycles, run from an empty `m_inlined_rules` (the `SASSERT`
of `plan_inlining`): every admissible sub-rule-set `create_allowed_rule_set` builds has no
negation cycle, neither `VERIFY(res->close())` fails, and the rule set the run returns is
traced in the input (every edge a resolvent introduces is a path of the input with the
polarity kept) and has no negation cycle. -/
theorem run_close_never_fails {ctx : Context} {fuel : Nat} {st : Inliner} {S : RuleSet}
    {mcReq pcReq : Bool} (h0 : st.inlinedRules = []) (hS : NegCycleFree S) :
    (∀ st' : Inliner, ∃ c, st'.createAllowedRuleSet ctx S = .ok c ∧ NegCycleFree c) ∧
    Inliner.run ctx fuel st S mcReq pcReq ≠ .error .verifyFailed ∧
    ∀ res st', Inliner.run ctx fuel st S mcReq pcReq = .ok (some res, st') →
      (∀ r ∈ res, Traced S r) ∧ NegCycleFree res := by
  refine ⟨fun st' => ⟨_, createAllowedRuleSet_ok st' hS,
    hS.of_traced fun t ht => traced_of_mem (List.mem_filter.mp ht).1⟩, ?_⟩
  unfold Inliner.run
  by_cases hempty : S = []
  · rw [if_pos hempty]; exact ⟨by simp, fun _ _ h => by cases h⟩
  rw [if_neg hempty]
  dsimp only
  split
  · rename_i e he
    exact ⟨(fun h => by cases h; cases planInlining_error hS he), fun _ _ h => by cases h⟩
  rename_i st₁ hplan
  have hinl := planInlining_traced (by simp [h0]) hplan
  split
  · rename_i e he
    exact ⟨(fun h => by cases h; cases transformRules_error he), fun _ _ h => by cases h⟩
  rename_i res done1 cv hbulk
  have hres := transformRules_traced hinl (fun r hr => traced_of_mem hr) (by simp) hbulk
  rw [if_neg (by simp [close_iff.mpr (hS.of_traced hres)])]
  split
  · rename_i e he
    exact ⟨(fun h => by cases h; cases doEagerInlining_error he), fun _ _ h => by cases h⟩
  rename_i res₂ done2 cv₂ heager
  have hres₂ := doEagerInlining_traced hres heager
  split
  · rename_i e he
    refine ⟨fun h => ?_, fun _ _ h => by cases h⟩
    cases h
    split_ifs at he
    rcases inlineLinear_error he with h | h <;> cases h
  rename_i res₃ done3 cv₃ hlin
  refine ⟨(fun h => by cases h), fun res st' h => ?_⟩
  have hres₃ : ∀ r ∈ res₃, Traced S r := by
    split_ifs at hlin
    · exact inlineLinear_traced hres₂ hlin
    · cases hlin; exact hres₂
  split_ifs at h
  · cases h; exact ⟨hres₃, hS.of_traced hres₃⟩
  · cases h

/-- `Out(x) :- P(x), not Q(x)`, `P(x) :- B(x)`, with facts for `B` and `Q`. -/
theorem run_close_negated_chain :
    let ctx := Context.reference [⟨0, 1⟩] [⟨2, 1⟩, ⟨3, 1⟩] ⟨[]⟩
    let S : RuleSet := [⟨⟨⟨0, 1⟩, [.var 0]⟩, [⟨⟨1, 1⟩, [.var 0]⟩], [⟨⟨3, 1⟩, [.var 0]⟩], []⟩,
      ⟨⟨⟨1, 1⟩, [.var 0]⟩, [⟨⟨2, 1⟩, [.var 0]⟩], [], []⟩]
    (∀ st' : Inliner, ∃ c, st'.createAllowedRuleSet ctx S = .ok c ∧ NegCycleFree c) ∧
    Inliner.run ctx 10 Inliner.init S true false ≠ .error .verifyFailed ∧
    ∀ res st', Inliner.run ctx 10 Inliner.init S true false = .ok (some res, st') →
      (∀ r ∈ res, Traced S r) ∧ NegCycleFree res :=
  run_close_never_fails rfl (close_iff.mp rfl)

end RuleInliner
