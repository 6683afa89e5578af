import RuleInliner.Semantics
import RuleInliner.Reuse

/-!
# What the bulk stage keeps

Two facts about every run of the bulk stage, each with a rule set on which it costs the pass
its contract.

`transform_rule` tests `has_quantifier` before it tests whether anything is to be inlined, so
it drops a rule with a quantified interpreted tail even when that rule has no admissible atom
and would otherwise go to the target unchanged: the bulk output holds no quantified rule
(`transformRules_quantifierFree`), which is what eager inlining, the stage that reads it, asks
of its input. A rule set whose output predicate is defined by such a rule loses that
predicate's extension (`run_drops_quantified_rule`).

Neither `transform_rule` nor `plan_inlining` calls `datalog::del_rule`, though
`transform_rules` removes every rule of an admissible predicate: the bulk stage leaves the model
converter as it found it, and a model of the output need not be mapped to a model of the input
(`run_converter_misses_eliminated_rule`).
-/

namespace RuleInliner

open Inliner

section Loop
variable {ctx : Context} {st : Inliner} {self : Bool}

/-- `transform_rule` adds no rule with a quantified interpreted tail. -/
lemma transformRuleLoop_quantifierFree :
    ∀ {n todo tgt modified cv out}, transformRuleLoop ctx st self n todo tgt modified cv = .ok out →
      (∀ s ∈ tgt, s.hasQuantifier = false) → ∀ s ∈ out.1, s.hasQuantifier = false
  | 0, _, _, _, _, _, h, _ => by cases h
  | n + 1, [], tgt, _, _, _, h, htgt => by cases h; exact htgt
  | n + 1, r :: todo, tgt, modified, cv, out, h, htgt => by
    rcases @transformRuleLoop_cons_cases ctx st self r with ⟨-, e⟩ | ⟨hq, -, e⟩ | ⟨-, i, hi, -, e⟩ <;>
      rw [e] at h
    · exact transformRuleLoop_quantifierFree h htgt
    · refine transformRuleLoop_quantifierFree h fun s hs => ?_
      rcases List.mem_append.mp hs with hs | hs
      · exact htgt s hs
      · exact List.mem_singleton.mp hs ▸ hq
    · exact transformRuleLoop_quantifierFree h htgt

end Loop

section Rules
variable {ctx : Context} {fuel : Nat} {st : Inliner}

/-- The bulk output holds no rule with a quantified interpreted tail. -/
theorem transformRules_quantifierFree :
    ∀ {rs tgt done cv out}, transformRules ctx fuel st rs tgt done cv = .ok out →
      (∀ s ∈ tgt, s.hasQuantifier = false) → ∀ s ∈ out.1, s.hasQuantifier = false
  | [], _, _, _, _, h, htgt => by cases h; exact htgt
  | r :: rs, tgt, done, cv, out, h, htgt => by
    rcases transformRules_cons_eq_ok h with ⟨-, h⟩ | ⟨-, _, _, _, hrun, h⟩
    · exact transformRules_quantifierFree h htgt
    · exact transformRules_quantifierFree h (transformRuleLoop_quantifierFree hrun htgt)

/-- `Out(x) :- A(x), φ` with `φ` a quantified constraint, and `Out(x) :- P(x)`. -/
def quantifiedRules : RuleSet :=
  [⟨⟨⟨0, 1⟩, [.var 0]⟩, [⟨⟨3, 1⟩, [.var 0]⟩], [], [⟨.sym 7, true⟩]⟩,
   ⟨⟨⟨0, 1⟩, [.var 0]⟩, [⟨⟨1, 1⟩, [.var 0]⟩], [], []⟩]

/-- `Out` is the output predicate and `A` has facts; `P` has neither rules nor facts. -/
def quantifiedContext : Context := Context.reference [⟨0, 1⟩] [⟨3, 1⟩] ⟨[]⟩

/-- On `quantifiedRules`, with `φ` true and the fact `A(a)`, the pass returns the empty rule
set: the first rule is dropped for its quantifier, the second because `P` is empty. `Out(a)`
holds in the input's stratified model and not in the output's. -/
theorem run_drops_quantified_rule :
    (∃ st', run quantifiedContext 10 init quantifiedRules true true = .ok (some [], st')) ∧
      (∃ M, Stable (fun _ => True) (· = ⟨⟨3, 1⟩, [.sym 0]⟩) quantifiedRules M) ∧
      (∀ M, Stable (fun _ => True) (· = ⟨⟨3, 1⟩, [.sym 0]⟩) quantifiedRules M →
        M ⟨⟨0, 1⟩, [.sym 0]⟩) ∧
      (∃ M, Stable (fun _ => True) (· = ⟨⟨3, 1⟩, [.sym 0]⟩) [] M) ∧
      ∀ M, Stable (fun _ => True) (· = ⟨⟨3, 1⟩, [.sym 0]⟩) [] M → ¬ M ⟨⟨0, 1⟩, [.sym 0]⟩ :=
  ⟨⟨_, rfl⟩, ⟨_, stable_of_negFree (by simp [quantifiedRules]) fun _ => False⟩,
    fun M hM => (hM ⟨⟨0, 1⟩, [.sym 0]⟩).mpr <|
      @Derives.rule _ _ _ M ⟨⟨⟨0, 1⟩, [.var 0]⟩, [⟨⟨3, 1⟩, [.var 0]⟩], [], [⟨.sym 7, true⟩]⟩
        (fun _ => .sym 0) (List.mem_cons_self _ _) (by simpa using .fact rfl) (by simp)
        (by simp),
    ⟨_, stable_of_negFree (by simp) fun _ => False⟩,
    fun M hM h => nomatch derives_nil.mp ((hM _).mp h)⟩

/-- On `chainRules`, with the fact `B(b)`, the pass returns `Out(x) :- B(x)` with no converter
entry. `B(b), Out(b)` is a model of the output and the facts, the converter leaves it as it is,
and it violates `P(x) :- B(x)`. -/
theorem run_converter_misses_eliminated_rule :
    (∃ st', run chainContext 10 init chainRules true false =
        .ok (some [⟨⟨⟨0, 1⟩, [.var 0]⟩, [⟨⟨2, 1⟩, [.var 0]⟩], [], []⟩], st') ∧
        st'.cv.mc = some []) ∧
      Satisfies (fun _ => True) (· = ⟨⟨2, 1⟩, [.sym 0]⟩)
        [⟨⟨⟨0, 1⟩, [.var 0]⟩, [⟨⟨2, 1⟩, [.var 0]⟩], [], []⟩]
        (fun a => a = ⟨⟨2, 1⟩, [.sym 0]⟩ ∨ a = ⟨⟨0, 1⟩, [.sym 0]⟩) ∧
      ¬ Satisfies (fun _ => True) (· = ⟨⟨2, 1⟩, [.sym 0]⟩) chainRules
        (applyMc (fun _ => True) [] fun a => a = ⟨⟨2, 1⟩, [.sym 0]⟩ ∨ a = ⟨⟨0, 1⟩, [.sym 0]⟩) :=
  ⟨⟨_, rfl, rfl⟩, ⟨fun _ h => .inl h, by
      simp only [List.mem_singleton]
      rintro r rfl ν ⟨hpos, -, -⟩
      have := hpos _ (List.mem_singleton_self _)
      simp [Atom.subst, Term.subst] at this ⊢
      exact this⟩,
    fun ⟨_, hS⟩ => by
      have := hS _ (List.mem_cons_of_mem _ (List.mem_singleton_self _)) (fun _ => .sym 0)
        ⟨by simp [Atom.subst, Term.subst], by simp, by simp⟩
      simp [Atom.subst, Term.subst] at this⟩

end Rules

end RuleInliner
