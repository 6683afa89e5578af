import RuleInliner.Syntax.Stratify

/-!
# Dependency paths and negation cycles

`rule_set::close` fails exactly when a negated tail atom closes a cycle of the predicate
dependency graph (`close_iff`, from the stratifier's contract in `Stratify.lean`); such a set
is not `NegCycleFree`.

A rule built by resolution has edges its parents do not have: a resolvent of `H :- …, P, …`
with a rule `P :- …, X, …` depends on `X` directly. `Traced R r` says that every edge
`r.decl → X` of `r` is a `PosPath` of `R`: a path from `r.decl` to `X` whose edges are
positive but the last, which has the polarity of the edge it stands for. Paths of rules
traced in `R` lift to paths of `R` (`PosPath.lift`), and a set traced in a set without a
negation cycle has none either (`NegCycleFree.of_traced`).
-/

namespace RuleInliner

/-- The tail atoms of `r` of one polarity: the negated ones when `neg`. -/
def Rule.atoms (r : Rule) (neg : Bool) : List Atom := if neg then r.neg else r.pos

@[simp] lemma Rule.atoms_false (r : Rule) : r.atoms false = r.pos := rfl
@[simp] lemma Rule.atoms_true (r : Rule) : r.atoms true = r.neg := rfl

lemma Rule.mem_tailPreds {r : Rule} {q : Pred} :
    q ∈ r.tailPreds ↔ ∃ neg, ∃ a ∈ r.atoms neg, a.pred = q := by
  simp [Rule.tailPreds, Rule.atoms, or_comm]

/-- A path from `p` to `q` in the dependency graph of `R` whose edges are positive but the
last, which is negative when `neg`. -/
inductive PosPath (R : RuleSet) : Pred → Pred → Bool → Prop
  | last {r : Rule} {a : Atom} {neg : Bool} : r ∈ R → a ∈ r.atoms neg → PosPath R r.decl a.pred neg
  | step {r : Rule} {a : Atom} {q : Pred} {neg : Bool} :
      r ∈ R → a ∈ r.pos → PosPath R a.pred q neg → PosPath R r.decl q neg

/-- Every edge of `r` is a path of `R` of the same polarity. -/
def Traced (R : RuleSet) (r : Rule) : Prop :=
  ∀ neg, ∀ a ∈ r.atoms neg, PosPath R r.decl a.pred neg

/-- No negated tail atom closes a cycle of the dependency graph. -/
def NegCycleFree (X : RuleSet) : Prop :=
  ∀ r ∈ X, ∀ a ∈ r.neg, ¬ Relation.TransGen X.Dep a.pred r.decl

variable {R T : RuleSet}

lemma PosPath.append {p m q : Pred} {neg : Bool} (h₁ : PosPath R p m false)
    (h₂ : PosPath R m q neg) : PosPath R p q neg := by
  generalize hf : false = f at h₁
  induction h₁ with
  | last hr ha => subst hf; exact .step hr ha h₂
  | step hr ha _ ih => exact .step hr ha (ih h₂ hf)

/-- A path of rules traced in `R` is a path of `R`. -/
lemma PosPath.lift (hT : ∀ t ∈ T, Traced R t) {p q : Pred} {neg : Bool} (h : PosPath T p q neg) :
    PosPath R p q neg := by
  induction h with
  | last ht ha => exact hT _ ht _ _ ha
  | step ht ha _ ih => exact (hT _ ht false _ ha).append ih

lemma PosPath.transGen {p q : Pred} {neg : Bool} (h : PosPath R p q neg) :
    Relation.TransGen R.Dep p q := by
  induction h with
  | @last r a neg hr ha =>
    exact .single ⟨r, hr, rfl, Rule.mem_tailPreds.mpr ⟨neg, a, ha, rfl⟩⟩
  | @step r a _ _ hr ha _ ih =>
    exact .head ⟨r, hr, rfl, Rule.mem_tailPreds.mpr ⟨false, a, ha, rfl⟩⟩ ih

/-- A path ending in a negative edge: a positive prefix, then a negated atom of a rule. -/
lemma PosPath.neg_last {p q : Pred} (h : PosPath R p q true) :
    ∃ r ∈ R, ∃ a ∈ r.neg, a.pred = q ∧ Relation.ReflTransGen R.Dep p r.decl := by
  generalize ht : true = t at h
  induction h with
  | @last r a _ hr ha => subst ht; exact ⟨r, hr, a, ha, rfl, .refl⟩
  | @step r a _ _ hr ha _ ih =>
    obtain ⟨r', hr', a', ha', hq, hpath⟩ := ih ht
    exact ⟨r', hr', a', ha', hq,
      .head ⟨r, hr, rfl, Rule.mem_tailPreds.mpr ⟨false, a, ha, rfl⟩⟩ hpath⟩

lemma traced_of_mem {r : Rule} (hr : r ∈ R) : Traced R r := fun _ _ ha => .last hr ha

lemma Traced.lift (hT : ∀ t ∈ T, Traced R t) {r : Rule} (h : Traced T r) : Traced R r :=
  fun neg a ha => (h neg a ha).lift hT

/-- Only the predicates of a rule's head and tail atoms matter to its edges. -/
lemma Traced.of_preds {r r' : Rule} (h : Traced R r) (hd : r'.decl = r.decl)
    (hpreds : ∀ neg, ∀ a ∈ r'.atoms neg, ∃ b ∈ r.atoms neg, b.pred = a.pred) : Traced R r' := by
  intro neg a ha
  obtain ⟨b, hb, hba⟩ := hpreds neg a ha
  rw [hd, ← hba]
  exact h neg b hb

/-- A dependency edge of a set traced in `R` is a path of `R`. -/
lemma transGen_of_dep (hT : ∀ t ∈ T, Traced R t) {p q : Pred} (h : T.Dep p q) :
    Relation.TransGen R.Dep p q := by
  obtain ⟨t, ht, rfl, hq⟩ := h
  obtain ⟨neg, a, ha, rfl⟩ := Rule.mem_tailPreds.mp hq
  exact (hT t ht neg a ha).transGen

lemma transGen_of_traced (hT : ∀ t ∈ T, Traced R t) {p q : Pred}
    (h : Relation.TransGen T.Dep p q) : Relation.TransGen R.Dep p q := by
  induction h with
  | single h => exact transGen_of_dep hT h
  | tail _ h ih => exact ih.trans (transGen_of_dep hT h)

/-- A set traced in a set without negation cycles has none either. -/
theorem NegCycleFree.of_traced (hR : NegCycleFree R) (hT : ∀ t ∈ T, Traced R t) :
    NegCycleFree T := by
  intro r hr a ha hcyc
  obtain ⟨r', hr', a', ha', hq, hpath⟩ := (hT r hr true a ha).neg_last
  exact hR r' hr' a' ha' (hq ▸ (transGen_of_traced hT hcyc).trans_left hpath)

/-- `rule_set::close` succeeds exactly on the sets without a negation cycle. -/
theorem close_iff {X : RuleSet} : X.close = true ↔ NegCycleFree X := by
  have hedge : ∀ r ∈ X, ∀ a ∈ r.neg, X.Dep r.decl a.pred := fun r hr a ha =>
    ⟨r, hr, rfl, Rule.mem_tailPreds.mpr ⟨true, a, ha, rfl⟩⟩
  have hsame : ∀ r ∈ X, ∀ a ∈ r.neg,
      X.getPredicateStrat a.pred = X.getPredicateStrat r.decl ↔
        Relation.TransGen X.Dep a.pred r.decl := by
    intro r hr a ha
    have hd := hedge r hr a ha
    rw [RuleSet.getPredicateStrat_eq_iff (RuleSet.mem_preds_of_dep hd).2
      (RuleSet.mem_preds_of_dep hd).1, RuleSet.sameStratum_iff]
    constructor
    · rintro (heq | ⟨h, -⟩)
      · rw [heq] at hd ⊢; exact .single hd
      · exact h
    · exact fun h => .inr ⟨h, .single hd⟩
  simp only [RuleSet.close, RuleSet.stratifiedNegation, List.all_eq_true, decide_eq_true_eq,
    NegCycleFree]
  exact forall₂_congr fun r hr => forall₂_congr fun a ha => not_congr (hsame r hr a ha)

end RuleInliner
