import RuleInliner.Resolution
import RuleInliner.Reference.Unify

/-!
# The pass derives nothing new

Every rule `operator()` returns is a rule of its input, or a renumbering or a resolvent of
rules it has built (`Stages.lean`). Fix a fact base `F`, a reading `N` of the negated atoms and
the atoms `D` the input derives. Every input rule is closed in `D`, renumbering keeps a rule's
instances, and a resolvent is closed wherever its target and source are
(`resolvent_closed`), given that `m_unif` returns a unifier (`Context.UnifierSound`) and that the
collaborators that finish the resolvent keep its instances (`Context.PreservesMeaning`). So
every rule the pass returns is closed in `D` (`resolutionClosed_closed`), and what the returned
rules derive lies in `D`, the least set closed under them (`run_sound`). Dropping a rule, as
`transform_rule` does with a quantified one and eager inlining with one whose atom has no
candidate, can only lose atoms, so nothing here asks that the pass keep every atom.

The reference unifier meets the contract (`Context.reference_unifierSound`).
-/

namespace RuleInliner

/-- Modelled from the spec: what `m_unif` returns equates the two argument lists, the first at
offset 0 and the second at offset 1. -/
def Context.UnifierSound (ctx : Context) : Prop :=
  ∀ n as bs σ, ctx.unif n as bs = some σ → as.map (Term.subst σ.1) = bs.map (Term.subst σ.2)

lemma Context.reference_unifierSound (outputs facts : List Pred) (params : Params.Obj) :
    (Context.reference outputs facts params).UnifierSound :=
  fun _ _ _ _ h => referenceUnif_sound h

variable {T : Theory} {ctx : Context}

/-- What `unify_rules` returns equates atom `i` of the target with the source's head. -/
lemma unifyRules_equates (hunif : ctx.UnifierSound) {tgt src : Rule} {i : Nat}
    {σ : Subst × Subst} (h : unifyRules ctx tgt i src = some σ) :
    tgt.pos[i]?.map (Atom.subst σ.1) = some (src.head.subst σ.2) := by
  obtain ⟨a, ha, hpred, hσ⟩ := unifyRules_eq_some.mp h
  rw [ha, Option.map_some', Atom.subst_eq_subst_iff.mpr ⟨hpred, hunif _ _ _ _ hσ⟩]

/-- Being closed in `M`, negated atoms read in `N`, is kept by renumbering and by resolution. -/
lemma resolutionClosed_closed (hctx : ctx.PreservesMeaning T) (hunif : ctx.UnifierSound)
    (N M : Interp) : ResolutionClosed ctx (Rule.Closed T N M) where
  normVars h := (Rule.equiv_normVars _).2.closed h
  resolve {_ _ tgt _ _ _} htry ht hs := by
    have hres := congrArg Prod.fst htry
    rw [tryToInlineRule_fst] at hres
    split_ifs at hres
    obtain ⟨σ, hσ, hres⟩ := Option.bind_eq_some.mp hres
    exact (applyUnifier_equiv hctx hres).1.closed
      (resolvent_closed (unifyRules_equates hunif hσ) ((Rule.equiv_normVars tgt).2.closed ht) hs)

/-- Run from an object with an empty `m_inlined_rules`, with `m_unif` returning unifiers and the
collaborators keeping instances: whatever the returned rules derive from any facts, negated
atoms read in any `N`, the input rules derive too. -/
theorem run_sound {fuel : Nat} {st st' : Inliner} {S res : RuleSet} {mcReq pcReq : Bool}
    (hctx : ctx.PreservesMeaning T) (hunif : ctx.UnifierSound) (h0 : st.inlinedRules = [])
    (h : Inliner.run ctx fuel st S mcReq pcReq = .ok (some res, st')) :
    ∀ (F N : Interp) (a : Atom), Derives T F res N a → Derives T F S N a := fun F N _ ha =>
  Derives.minimal (fun _ => .fact) ((resolutionClosed_closed hctx hunif N _).run
    (by simp [h0]) (fun _ hr _ => Derives.closed hr) h) ha

/-- On `Out(x) :- P(x)`, `P(x) :- B(x)`, the pass returns `Out(x) :- B(x)`. -/
theorem run_sound_chain :
    ∃ st₁, Inliner.run chainContext 10 Inliner.init chainRules true true =
        .ok (some [⟨⟨⟨0, 1⟩, [.var 0]⟩, [⟨⟨2, 1⟩, [.var 0]⟩], [], []⟩], st₁) ∧
      ∀ (F N : Interp) (a : Atom),
        Derives (fun _ => True) F [⟨⟨⟨0, 1⟩, [.var 0]⟩, [⟨⟨2, 1⟩, [.var 0]⟩], [], []⟩] N a →
          Derives (fun _ => True) F chainRules N a :=
  ⟨_, rfl, @run_sound _ chainContext 10 Inliner.init _ chainRules _ true true
    (Context.reference_preservesMeaning _ _ _ _) (Context.reference_unifierSound _ _ _) rfl rfl⟩

end RuleInliner
