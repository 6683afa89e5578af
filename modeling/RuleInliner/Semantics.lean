import RuleInliner.Syntax.Rule

/-!
# The meaning of a rule set

The model-theoretic reading of Datalog rules. A `Theory` says which instances of interpreted
constraints hold, an `Interp` which atoms are true. `Derives T F R N` is the least set of atoms
containing the fact base `F` and closed under the rules of `R`, negated atoms being read in `N`;
a stable model is a fixed point `M = Derives T F R M`, which on a stratified rule set is its
stratified least model (`Stable`). A rule set without negation has `Derives T F R N` as a
stable model, for any `N` (`stable_of_negFree`).

A model converter maps an interpretation of the transformed rule set back to one of the
original: a `horn_subsume_model_converter` entry recorded by `datalog::del_rule` for a rule
`P(x) :- body` extends `P` by the instances of the body (`applyEntry`), the entries being
applied in the converter's order (`applyMc`).
-/

namespace RuleInliner

/-- Which instances of interpreted constraints hold: the background theory. -/
abbrev Theory := Constraint → Prop

/-- An interpretation of the uninterpreted predicates: the atoms it makes true. -/
abbrev Interp := Atom → Prop

/-- The body of `r` holds under the valuation `ν`: its positive atoms in `M`, its negated
atoms outside `N`, its constraints in the theory. -/
def Rule.Body (T : Theory) (N M : Interp) (r : Rule) (ν : Subst) : Prop :=
  (∀ a ∈ r.pos, M (a.subst ν)) ∧ (∀ a ∈ r.neg, ¬ N (a.subst ν)) ∧ ∀ c ∈ r.interp, T (c.subst ν)

/-- `M` satisfies `r`: every instance whose body holds in `M` has its head in `M`. -/
def Rule.Holds (T : Theory) (M : Interp) (r : Rule) : Prop :=
  ∀ ν, r.Body T M M ν → M (r.head.subst ν)

/-- `M` is closed under `r`, negated atoms read in `N`: every instance whose body holds has its
head in `M`. A model of `r` is an `M` closed under `r` with negation read in `M` itself. -/
def Rule.Closed (T : Theory) (N M : Interp) (r : Rule) : Prop :=
  ∀ ν, r.Body T N M ν → M (r.head.subst ν)

/-- `M` is a model of the rule set `R` together with the fact base `F`. -/
def Satisfies (T : Theory) (F : Interp) (R : RuleSet) (M : Interp) : Prop :=
  (∀ a, F a → M a) ∧ ∀ r ∈ R, r.Holds T M

/-- The atoms derivable from the facts `F` by the rules of `R`, negated atoms read in `N`. -/
inductive Derives (T : Theory) (F : Interp) (R : RuleSet) (N : Interp) : Interp
  | fact {a : Atom} : F a → Derives T F R N a
  | rule {r : Rule} {ν : Subst} : r ∈ R → (∀ a ∈ r.pos, Derives T F R N (a.subst ν)) →
      (∀ a ∈ r.neg, ¬ N (a.subst ν)) → (∀ c ∈ r.interp, T (c.subst ν)) →
      Derives T F R N (r.head.subst ν)

/-- `M` is a stable model of `R` over `F`: exactly what `R` derives from `F` when negated atoms
are read in `M` itself. -/
def Stable (T : Theory) (F : Interp) (R : RuleSet) (M : Interp) : Prop :=
  ∀ a, M a ↔ Derives T F R M a

/-- The interpretation one converter entry, recorded for the rule `r`, produces: `P(x)` becomes
`P(x) ∨ ∃ y. body`. -/
def applyEntry (T : Theory) (M : Interp) (r : Rule) : Interp :=
  fun a => M a ∨ ∃ ν, a = r.head.subst ν ∧ r.Body T M M ν

/-- A `horn_subsume_model_converter` applied to `M`, its entries in the converter's order. -/
def applyMc (T : Theory) (entries : List Rule) (M : Interp) : Interp :=
  entries.foldl (applyEntry T) M

variable {T : Theory} {F : Interp} {R R' : RuleSet} {N : Interp}

/-- The derivable atoms are closed under the rules. -/
lemma Derives.closed {r : Rule} (hr : r ∈ R) {ν : Subst} (h : r.Body T N (Derives T F R N) ν) :
    Derives T F R N (r.head.subst ν) :=
  .rule hr h.1 h.2.1 h.2.2

/-- The derivable atoms lie in every interpretation that holds the facts and is closed under
the rules. -/
lemma Derives.minimal {M : Interp} (hF : ∀ a, F a → M a) (hR : ∀ r ∈ R, r.Closed T N M) {a : Atom}
    (h : Derives T F R N a) : M a := by
  induction h with
  | fact ha => exact hF _ ha
  | rule hr _ hneg hc ih => exact hR _ hr _ ⟨ih, hneg, hc⟩

lemma Derives.mono (hRR : ∀ r ∈ R, r ∈ R') {a : Atom} (h : Derives T F R N a) :
    Derives T F R' N a := by
  induction h with
  | fact ha => exact .fact ha
  | rule hr _ hneg hc ih => exact .rule (hRR _ hr) ih hneg hc

/-- Without negated atoms, what is derivable does not depend on how negation is read. -/
lemma Derives.negFree (hR : ∀ r ∈ R, r.neg = []) (N' : Interp) {a : Atom}
    (h : Derives T F R N a) : Derives T F R N' a := by
  induction h with
  | fact ha => exact .fact ha
  | rule hr _ _ hc ih => exact .rule hr ih (by simp [hR _ hr]) hc

/-- A rule set without negation has a stable model: what it derives. -/
lemma stable_of_negFree (hR : ∀ r ∈ R, r.neg = []) (N : Interp) :
    Stable T F R (Derives T F R N) :=
  fun _ => ⟨Derives.negFree hR _, Derives.negFree hR _⟩

/-- From no rules, only the facts are derivable. -/
lemma derives_nil {a : Atom} : Derives T F [] N a ↔ F a := by
  refine ⟨fun h => ?_, .fact⟩
  induction h with
  | fact ha => exact ha
  | rule hr => cases hr

@[simp] lemma applyMc_nil (M : Interp) : applyMc T [] M = M := rfl

/-- A converter only adds atoms. -/
lemma le_applyMc : ∀ (entries : List Rule) (M : Interp) {a : Atom}, M a → applyMc T entries M a
  | [], _, _, h => h
  | r :: entries, M, _, h => le_applyMc entries (applyEntry T M r) (.inl h)

end RuleInliner
