import RuleInliner.Eager.Complete
import RuleInliner.Linear.Complete
import RuleInliner.Output

/-!
# The pass keeps the meaning of the output predicates

When `operator()` returns a rule set, that set derives an atom of an output predicate exactly
when the input does (`run_keeps_outputs`), from every fact base over the predicates with facts
and with negated atoms read in any interpretation. One direction is `Sound.lean`'s. The other
chains the three stages a run goes through (`Inliner.run_eq_some`):
* bulk inlining keeps every predicate `inlining_allowed` rejects, the output predicates among
  them (`unfolded_of_derives`);
* eager inlining keeps every atom (`doEagerInlining_derives`);
* linear inlining keeps the predicates `add_rule` protects from removal, the output predicates
  among them (`inlineLinear_derives`).

Each stage asks something of the rules it is given. Eager inlining needs rules without
quantified constraints, and bulk inlining returns only such rules
(`transformRules_quantifierFree`). Linear inlining needs rules with dense variables, and
renumbering and resolution return such rules (`denseClosed`). It also needs the facts to lie over
`m_preds_with_facts`, which `plan_inlining` fills with the predicates
`collect_non_empty_predicates` reports (`mem_predsWithFacts_planInlining`).
-/

namespace RuleInliner

variable {ctx : Context}

/-- After `plan_inlining`, `m_preds_with_facts` holds every predicate
`collect_non_empty_predicates` reports. -/
lemma mem_predsWithFacts_planInlining {fuel : Nat} {st st' : Inliner} {S : RuleSet}
    (h : st.planInlining ctx fuel S = .ok st') {p : Pred} (hp : p ∈ ctx.nonEmptyPredicates) :
    p ∈ st'.predsWithFacts := by
  obtain ⟨st₁, cand, hc, hfill⟩ := Inliner.planInlining_eq_ok h
  have h₁ : p ∈ (st.countPredOccurrences ctx S).predsWithFacts :=
    (Inliner.grows_foldl_countRule S _).facts ((mem_foldl_insert _ _).mpr (.inr hp))
  exact (grows_fill hfill).facts ((Inliner.frame_planCandidates hc).facts ▸ h₁)

/-- What a run of `operator()` that returns a rule set has done: `plan_inlining` and
`transform_rules` on the input, eager inlining on what bulk inlining returned, and, with
`:inline-linear` on, linear inlining on what eager inlining returned; the object it leaves holds
the converters of the last stage. -/
lemma Inliner.run_eq_some {fuel : Nat} {st st' : Inliner} {S res : RuleSet} {mcReq pcReq : Bool}
    (h : Inliner.run ctx fuel st S mcReq pcReq = .ok (some res, st')) :
    ∃ st₁ res₁ done₁ cv₁ res₂ done₂ cv₂ done₃ cv₃,
      { st with cv := ⟨if mcReq then some [] else none, if pcReq then some [] else none⟩ }.planInlining
        ctx fuel S = .ok st₁ ∧
      transformRules ctx fuel st₁ S [] false st₁.cv = .ok (res₁, done₁, cv₁) ∧
      doEagerInlining ctx fuel { st₁ with cv := cv₁ } res₁ = .ok (res₂, done₂, cv₂) ∧
      (if ctx.params.getBool ":inline-linear" true
        then inlineLinear ctx fuel { st₁ with cv := cv₂ } res₂ else .ok (res₂, false, cv₂)) =
        .ok (res, done₃, cv₃) ∧
      st' = { st₁ with cv := cv₃ } := by
  unfold Inliner.run at h
  rw [if_neg fun he => by rw [if_pos he] at h; cases h] at h
  dsimp only at h
  split at h; · cases h
  rename_i st₁ hplan
  split at h; · cases h
  rename_i res₁ done₁ cv₁ hbulk
  split at h; · cases h
  split at h; · cases h
  rename_i res₂ done₂ cv₂ heager
  split at h; · cases h
  rename_i res₃ done₃ cv₃ hlin
  split_ifs at h <;> cases h
  exact ⟨st₁, res₁, done₁, cv₁, res₂, done₂, cv₂, done₃, cv₃, hplan, hbulk, heager, hlin, rfl⟩

/-- Run from an object with an empty `m_inlined_rules` on an input with dense variables and
without quantified constraints, with `m_unif` returning most general unifiers and the
collaborators keeping instances and dense variables and adding no quantifier: when
`operator()` returns a rule set, that set derives an atom of an output predicate, from every fact
base over the predicates `collect_non_empty_predicates` reports and with negated atoms read in
every `N`, exactly when the input does. -/
theorem run_keeps_outputs {T : Theory} {F : Interp} {fuel : Nat} {st st' : Inliner}
    {S res : RuleSet} {mcReq pcReq : Bool} (hctx : ctx.PreservesMeaning T)
    (hsound : ctx.UnifierSound) (hcomp : ctx.UnifierComplete) (hqf : ctx.KeepsQuantifierFree)
    (hkd : ctx.KeepsDense) (hS : ∀ r ∈ S, r.hasQuantifier = false)
    (hdense : ∀ r ∈ S, r.DenseVars) (hF : ∀ a, F a → a.pred ∈ ctx.nonEmptyPredicates)
    (h0 : st.inlinedRules = []) (h : Inliner.run ctx fuel st S mcReq pcReq = .ok (some res, st'))
    (N : Interp) (a : Atom) (ha : ctx.isOutputPredicate a.pred = true) :
    Derives T F res N a ↔ Derives T F S N a := by
  refine ⟨Derives.minimal (fun _ => .fact) ((resolutionClosed_closed hctx hsound N _).run
    (by simp [h0]) (fun _ hr _ => Derives.closed hr) h), fun hd => ?_⟩
  obtain ⟨st₁, res₁, _, cv₁, res₂, _, cv₂, _, _, hplan, hbulk, heager, hlin, -⟩ :=
    Inliner.run_eq_some h
  obtain ⟨st₂, cand, hc, hfill⟩ := Inliner.planInlining_eq_ok hplan
  have hF₁ : ∀ a, F a → a.pred ∈ st₁.predsWithFacts :=
    fun a hf => mem_predsWithFacts_planInlining hplan (hF a hf)
  -- bulk inlining keeps the predicates it does not inline, the output predicates among them
  have hd₁ : Derives T F res₁ N a :=
    (unfolded_of_not_adm (by simp [Inliner.inliningAllowed, ha])).mp
      (unfolded_of_derives (by exact h0) hc hfill hctx hsound hcomp hqf hS hF hbulk hd)
  -- eager inlining keeps every atom
  have hq₁ := transformRules_quantifierFree hbulk fun _ h => by cases h
  have hd₂ := doEagerInlining_derives hctx hsound hcomp hqf hq₁ (by exact hF₁) heager hd₁
  -- linear inlining keeps the predicates it may not remove, the output predicates among them
  split_ifs at hlin
  · have hdense₂ := (denseClosed hkd).doEagerInlining ((denseClosed hkd).transformRules
      ((denseClosed hkd).planInlining hdense (by simp [h0]) hplan) hdense (fun _ h => by cases h)
      hbulk) heager
    exact inlineLinear_derives hctx hsound hcomp hkd hdense₂ (by exact hF₁) hlin (by simp [ha]) hd₂
  · cases hlin
    exact hd₂

/-- `Out(x) :- P(x)`, with no rule for `P`, and `Out(x) :- B(x)`. -/
def deadRuleSet : RuleSet :=
  [⟨⟨⟨0, 1⟩, [.var 0]⟩, [⟨⟨1, 1⟩, [.var 0]⟩], [], []⟩,
   ⟨⟨⟨0, 1⟩, [.var 0]⟩, [⟨⟨2, 1⟩, [.var 0]⟩], [], []⟩]

/-- On `deadRuleSet` with the fact `B(c)`, bulk inlining drops the rule through `P` and the pass
returns `Out(x) :- B(x)`; the input derives `Out(c)`, and so does what the pass returns. -/
theorem run_keeps_outputs_deadRule :
    ∃ st₁, Inliner.run mguChainContext 10 Inliner.init deadRuleSet true true =
        .ok (some [⟨⟨⟨0, 1⟩, [.var 0]⟩, [⟨⟨2, 1⟩, [.var 0]⟩], [], []⟩], st₁) ∧
      Derives (fun _ => True) (fun a => a.pred = ⟨2, 1⟩) deadRuleSet (fun _ => False)
        ⟨⟨0, 1⟩, [.sym 0]⟩ ∧
      (Derives (fun _ => True) (fun a => a.pred = ⟨2, 1⟩)
          [⟨⟨⟨0, 1⟩, [.var 0]⟩, [⟨⟨2, 1⟩, [.var 0]⟩], [], []⟩] (fun _ => False) ⟨⟨0, 1⟩, [.sym 0]⟩ ↔
        Derives (fun _ => True) (fun a => a.pred = ⟨2, 1⟩) deadRuleSet (fun _ => False)
          ⟨⟨0, 1⟩, [.sym 0]⟩) := by
  obtain ⟨st₁, h⟩ : ∃ st₁, Inliner.run mguChainContext 10 Inliner.init deadRuleSet true true =
      .ok (some [⟨⟨⟨0, 1⟩, [.var 0]⟩, [⟨⟨2, 1⟩, [.var 0]⟩], [], []⟩], st₁) := ⟨_, rfl⟩
  refine ⟨st₁, h, @Derives.rule _ _ _ _ ⟨⟨⟨0, 1⟩, [.var 0]⟩, [⟨⟨2, 1⟩, [.var 0]⟩], [], []⟩
    (fun _ => .sym 0) (by simp [deadRuleSet]) (by simpa using .fact rfl) (by simp) (by simp), ?_⟩
  exact run_keeps_outputs (mguChainContext_preservesMeaning _) mguChainContext_unifierSound
    mguChainContext_unifierComplete mguChainContext_keepsQuantifierFree mguChainContext_keepsDense
    (by decide) (by decide) (fun a ha => by rw [ha]; exact List.mem_singleton_self _) rfl h _ _ rfl

end RuleInliner
