import RuleInliner.Planner.Cycles
import RuleInliner.Eager.Termination
import RuleInliner.Linear.Visitors
import RuleInliner.Reuse

/-!
# The pass finishes

`operator()` runs four loops that have no bound in the source, each on fuel in the model: the
cycle breaker of `plan_inlining`, the worklist of `transform_rule`, the rewriting loop of eager
inlining and the `while (true)` of the linear driver. Each finishes on its own (`cycleLoop_ok`,
`bulk_finishes`, `doEagerInlining_finishes`, `linearDriver_ne_outOfFuel` without branching),
and more fuel changes nothing once it has. The one other way a run can fail is the null
dereference of `del_rule`, which the linear driver never reaches on rules with dense variables
(`Registered.linearDriver_error`); renumbering and resolution give such rules
(`denseClosed`), so the rules the eager stage hands to the linear one have dense variables
whenever the input's do.

So on an input without negation cycles whose rules are normalised, with
`:inline-linear-branch` off, the whole pass returns, and returns one result for all large
enough fuel (`run_finishes`).
-/

namespace RuleInliner

variable {ctx : Context}

/-- Renumbering gives dense variables, and so does resolution when the collaborators keep them. -/
lemma denseClosed (hctx : ctx.KeepsDense) : ResolutionClosed ctx Rule.DenseVars :=
  ⟨fun _ => Rule.denseVars_normVars _, fun h _ _ => tryToInlineRule_denseVars hctx h⟩

/-- On an input without negation cycles, the analyses of `plan_inlining` return. -/
lemma planCandidates_ok {S : RuleSet} (hS : NegCycleFree S) (st : Inliner) :
    ∃ fuel st' cand, st.planCandidates ctx fuel S = .ok (st', cand) := by
  set n := max 1 (Inliner.admissiblePreds ctx (st.countPredOccurrences ctx S) S).length
  obtain ⟨st₂, hloop⟩ := @Inliner.cycleLoop_ok ctx S hS n (st.countPredOccurrences ctx S) le_rfl
  obtain ⟨st', b, hfm⟩ : ∃ st' b,
      st₂.forbidMultipleMultipliers ctx S (S.filter fun r => st₂.inliningAllowed ctx r.decl) =
        (st', b) := ⟨_, _, rfl⟩
  cases b
  · exact ⟨n, st', S.filter fun r => st₂.inliningAllowed ctx r.decl, by
      simp [Inliner.planCandidates, createAllowedRuleSet_ok _ hS, hloop, hfm, pure, Except.pure]⟩
  · exact ⟨n, st', S.filter fun r => st'.inliningAllowed ctx r.decl, by
      simp [Inliner.planCandidates, createAllowedRuleSet_ok _ hS, hloop, hfm, pure, Except.pure]⟩

/-- Without branching, linear inlining on rules with dense variables finishes. -/
lemma inlineLinear_finishes (hctx : ctx.KeepsDense)
    (hb : ctx.params.getBool ":inline-linear-branch" false = false) {rules : RuleSet}
    (hdense : ∀ r ∈ rules, r.DenseVars) (st : Inliner) :
    Finishes (fun F => inlineLinear ctx F st rules) fun _ => True := by
  obtain ⟨s, hs⟩ : ∃ s, linearDriver ctx (rules.length + 1) st.predsWithFacts false
      (List.range rules.length) (linearInit ctx st.predsWithFacts st.cv rules) = .ok s := by
    cases h : linearDriver ctx (rules.length + 1) st.predsWithFacts false
      (List.range rules.length) (linearInit ctx st.predsWithFacts st.cv rules) with
    | ok s => exact ⟨s, rfl⟩
    | error e =>
      have he := (@LinearState.registered_linearInit ctx st.predsWithFacts rules hdense st.cv).linearDriver_error
        hctx _ _ h
      exact absurd (he ▸ h) (linearDriver_ne_outOfFuel (by simp))
  have hrun : ∀ k, inlineLinear ctx (rules.length + 1 + k) st rules =
      inlineLinear ctx (rules.length + 1) st rules := fun k => by
    unfold inlineLinear
    dsimp only
    rw [hb, linearDriver_add k hs, hs]
  obtain ⟨x, hx⟩ : ∃ x, inlineLinear ctx (rules.length + 1) st rules = .ok x := by
    unfold inlineLinear
    dsimp only
    rw [hb, hs]
    dsimp only
    split <;> exact ⟨_, rfl⟩
  refine ⟨rules.length + 1, x, trivial, fun F hF => ?_⟩
  obtain ⟨k, rfl⟩ : ∃ k, F = rules.length + 1 + k := ⟨F - (rules.length + 1), by omega⟩
  exact (hrun k).trans hx

/-- On an input without negation cycles whose rules have dense variables, with the collaborators
keeping them dense and `:inline-linear-branch` off, `operator()` run from an object with an empty
`m_inlined_rules` returns, and returns one result for all large enough fuel. -/
theorem run_finishes {st : Inliner} {S : RuleSet} {mcReq pcReq : Bool} (hS : NegCycleFree S)
    (hdense : ∀ r ∈ S, r.DenseVars) (hctx : ctx.KeepsDense)
    (hb : ctx.params.getBool ":inline-linear-branch" false = false) (h0 : st.inlinedRules = []) :
    Finishes (fun fuel => Inliner.run ctx fuel st S mcReq pcReq) fun _ => True := by
  by_cases hempty : S = []
  · exact ⟨0, (none, st), trivial, fun F _ => by
    show Inliner.run ctx F st S mcReq pcReq = _
    unfold Inliner.run
    rw [if_pos hempty]⟩
  set st₀ : Inliner := { st with cv := ⟨if mcReq then some [] else none,
    if pcReq then some [] else none⟩ }
  obtain ⟨fuel₀, stc, cand, hc⟩ := planCandidates_ok hS st₀
  obtain ⟨K₁, inl, cv, out, done, cv', -, -, hbulk⟩ := @bulk_finishes ctx stc st₀ S cand fuel₀ h0 hc
  obtain ⟨-, hplan, htr⟩ := hbulk K₁ le_rfl
  have hinl := (denseClosed hctx).planInlining hdense (by simp [st₀, h0]) hplan
  have hout := (denseClosed hctx).transformRules hinl hdense (fun _ h => by cases h) htr
  have hclose : out.close = true := close_iff.mpr (hS.of_traced
    (transformRules_traced (planInlining_traced (by simp [st₀, h0]) hplan)
      (fun _ => traced_of_mem) (fun _ h => by cases h) htr))
  obtain ⟨K₂, ⟨res₂, done₂, cv₂⟩, -, heager⟩ :=
    doEagerInlining_finishes ctx out { stc with inlinedRules := inl, cv := cv' }
  have hres₂ := (denseClosed hctx).doEagerInlining hout (heager K₂ le_rfl)
  obtain ⟨K₃, lin, hlin⟩ : ∃ K₃ lin, ∀ F, K₃ ≤ F →
      (if ctx.params.getBool ":inline-linear" true
        then inlineLinear ctx F { stc with inlinedRules := inl, cv := cv₂ } res₂
        else .ok (res₂, false, cv₂)) = .ok lin := by
    split
    · obtain ⟨K₃, lin, -, h⟩ := inlineLinear_finishes hctx hb hres₂
        { stc with inlinedRules := inl, cv := cv₂ }
      exact ⟨K₃, lin, h⟩
    · exact ⟨0, _, fun _ _ => rfl⟩
  refine ⟨K₁ + K₂ + K₃, (if done || done₂ || lin.2.1 then some lin.1 else none,
    { stc with inlinedRules := inl, cv := lin.2.2 }), trivial, fun F hF => ?_⟩
  have e₁ := hbulk F (by omega)
  have e₂ : doEagerInlining ctx F { stc with inlinedRules := inl, cv := cv' } out =
    .ok (res₂, done₂, cv₂) := heager F (by omega)
  have e₃ := hlin F (by omega)
  show Inliner.run ctx F st S mcReq pcReq = _
  unfold Inliner.run
  rw [if_neg hempty]
  simp only [e₁.2.1, e₁.2.2, hclose, Bool.not_true, Bool.false_eq_true, ↓reduceIte, e₂, e₃]

/-- The chain `Out(x) :- P(x)`, `P(x) :- B(x)`, with the reference collaborators. -/
theorem run_finishes_chain :
    NegCycleFree chainRules ∧ (∀ r ∈ chainRules, r.DenseVars) ∧ chainContext.KeepsDense ∧
      chainContext.params.getBool ":inline-linear-branch" false = false ∧
      Finishes (fun fuel => Inliner.run chainContext fuel Inliner.init chainRules true true)
        fun _ => True :=
  have hS : NegCycleFree chainRules := close_iff.mp rfl
  have hctx := Context.reference_keepsDense [⟨0, 1⟩] [⟨2, 1⟩] ⟨[]⟩
  ⟨hS, by decide, hctx, rfl, run_finishes hS (by decide) hctx rfl rfl⟩

end RuleInliner
