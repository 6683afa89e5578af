import Mathlib
import RuleInliner.Syntax.Rule

/-!
# Substitutions and renumbering

Facts about substitution on the syntax of `Syntax/Term.lean` and `Syntax/Rule.lean` that the
proofs about the unifier and about the linear inliner share. Applying two substitutions in turn
applies their composition (`Term.subst_subst`), and a substitution only matters on the variables
that occur (`Term.subst_congr`). `rule::norm_vars` (`Rule.normVars`) renumbers the variables of a
rule by `Rule.normIndex`, strictly monotone on them (`Rule.normIndex_lt_normIndex`): it is a
renaming, so every valuation of a rule is one of its renumbering read back
(`Rule.exists_normIndex_valuation`); it changes nothing on a rule whose variables are dense
(`Rule.normVars_eq_self`) and always gives one (`Rule.denseVars_normVars`).
-/

namespace RuleInliner

/-- Apply `σ`, then `τ`. -/
def Subst.comp (σ τ : Subst) : Subst := fun v => (σ v).subst τ

lemma Term.subst_subst (σ τ : Subst) : ∀ t : Term, (t.subst σ).subst τ = t.subst (σ.comp τ)
  | .var _ => rfl
  | .sym _ => rfl
  | .app s t => by simp only [Term.subst, Term.subst_subst σ τ s, Term.subst_subst σ τ t]

lemma Term.subst_congr {σ τ : Subst} : ∀ {t : Term}, (∀ v ∈ t.vars, σ v = τ v) → t.subst σ = t.subst τ
  | .var _, h => h _ (List.mem_singleton_self _)
  | .sym _, _ => rfl
  | .app s t, h => by
    simp only [Term.vars, List.mem_append] at h
    rw [Term.subst, Term.subst, Term.subst_congr fun v hv => h v (.inl hv),
      Term.subst_congr fun v hv => h v (.inr hv)]

lemma Term.vars_subst_var (f : Nat → Nat) : ∀ t : Term,
    (t.subst fun v => .var (f v)).vars = t.vars.map f
  | .var _ => rfl
  | .sym _ => rfl
  | .app s t => by
    simp only [Term.subst, Term.vars, Term.vars_subst_var f s, Term.vars_subst_var f t,
      List.map_append]

lemma Atom.subst_subst (σ τ : Subst) (a : Atom) : (a.subst σ).subst τ = a.subst (σ.comp τ) := by
  simp [Atom.subst, Function.comp_def, Term.subst_subst]

lemma Atom.subst_congr {σ τ : Subst} {a : Atom} (h : ∀ v ∈ a.vars, σ v = τ v) :
    a.subst σ = a.subst τ :=
  congrArg (Atom.mk a.pred) (List.map_congr_left fun t ht =>
    Term.subst_congr fun v hv => h v (List.mem_flatMap.mpr ⟨t, ht, hv⟩))

@[simp] lemma Atom.subst_var (a : Atom) : a.subst Term.var = a :=
  congrArg (Atom.mk a.pred) (List.map_id'' Term.subst_var a.args)

lemma Constraint.subst_subst (σ τ : Subst) (c : Constraint) :
    (c.subst σ).subst τ = c.subst (σ.comp τ) := by
  simp [Constraint.subst, Term.subst_subst]

lemma Constraint.subst_congr {σ τ : Subst} {c : Constraint} (h : ∀ v ∈ c.body.vars, σ v = τ v) :
    c.subst σ = c.subst τ :=
  congrArg (Constraint.mk · c.quantified) (Term.subst_congr h)

@[simp] lemma Constraint.subst_var (c : Constraint) : c.subst Term.var = c := by
  simp [Constraint.subst]

namespace Rule

lemma subst_subst (σ τ : Subst) (r : Rule) : (r.subst σ).subst τ = r.subst (σ.comp τ) := by
  simp [subst, Atom.subst_subst, Constraint.subst_subst, Function.comp_def]

@[simp] lemma subst_var (r : Rule) : r.subst Term.var = r := by
  simp [subst, List.map_id'' Atom.subst_var, List.map_id'' Constraint.subst_var]

lemma subst_congr {σ τ : Subst} {r : Rule} (h : ∀ v ∈ r.vars, σ v = τ v) : r.subst σ = r.subst τ := by
  simp only [vars, List.mem_append, List.mem_flatMap] at h
  rcases r with ⟨hd, pos, neg, interp⟩
  simp only [subst, mk.injEq]
  refine ⟨Atom.subst_congr fun v hv => h v (.inl (.inl hv)),
    List.map_congr_left fun a ha => Atom.subst_congr fun v hv => h v (.inl (.inr ⟨a, .inl ha, hv⟩)),
    List.map_congr_left fun a ha => Atom.subst_congr fun v hv => h v (.inl (.inr ⟨a, .inr ha, hv⟩)),
    List.map_congr_left fun c hc => Constraint.subst_congr fun v hv => h v (.inr ⟨c, hc, hv⟩)⟩

lemma subst_eq_self {σ : Subst} {r : Rule} (h : ∀ v ∈ r.vars, σ v = .var v) : r.subst σ = r :=
  (subst_congr h).trans (subst_var r)

lemma vars_subst_var (f : Nat → Nat) (r : Rule) :
    (r.subst fun v => .var (f v)).vars = r.vars.map f := by
  simp [vars, subst, Atom.vars, Atom.subst, Constraint.subst, List.flatMap_map, List.map_flatMap,
    Term.vars_subst_var, Function.comp_def]

/-! ## Renumbering -/

/-- The index `rule::norm_vars` gives variable `v` of `r`: the number of variables of `r` below
it. -/
def normIndex (r : Rule) (v : Nat) : Nat := (r.vars.dedup.filter (· < v)).length

lemma normVars_eq (r : Rule) : r.normVars = r.subst fun v => .var (r.normIndex v) := rfl

lemma normIndex_lt_length {r : Rule} {x : Nat} (hx : x ∈ r.vars) :
    r.normIndex x < r.vars.dedup.length :=
  List.length_filter_lt_length_iff_exists.mpr ⟨x, List.mem_dedup.mpr hx, by simp⟩

lemma normIndex_lt_normIndex {r : Rule} {x y : Nat} (hx : x ∈ r.vars) (hxy : x < y) :
    r.normIndex x < r.normIndex y := by
  have hsub : List.Sublist (r.vars.dedup.filter (· < x)) (r.vars.dedup.filter (· < y)) :=
    List.monotone_filter_right _ fun u hu => by simp only [decide_eq_true_eq] at hu ⊢; omega
  refine lt_of_le_of_ne hsub.length_le fun heq => ?_
  have hx' : x ∈ r.vars.dedup.filter (· < y) :=
    List.mem_filter.mpr ⟨List.mem_dedup.mpr hx, by simpa using hxy⟩
  rw [← hsub.eq_of_length heq] at hx'
  simp at hx'

/-- Renumbering is injective on the variables of the rule. -/
lemma normIndex_injOn {r : Rule} {x y : Nat} (hx : x ∈ r.vars) (hy : y ∈ r.vars)
    (h : r.normIndex x = r.normIndex y) : x = y := by
  rcases Nat.lt_trichotomy x y with hxy | hxy | hxy
  · exact absurd h (normIndex_lt_normIndex hx hxy).ne
  · exact hxy
  · exact absurd h (normIndex_lt_normIndex hy hxy).ne'

/-- Every valuation of `r` is a valuation of its renumbering read back. -/
lemma exists_normIndex_valuation (r : Rule) (μ : Subst) :
    ∃ ν : Subst, ∀ v ∈ r.vars, ν (r.normIndex v) = μ v := by
  refine ⟨fun w => match r.vars.find? (fun x => r.normIndex x = w) with
    | some x => μ x
    | none => .var w, fun v hv => ?_⟩
  cases h : r.vars.find? (fun x => r.normIndex x = r.normIndex v) with
  | none => exact absurd (List.find?_eq_none.mp h v hv) (by simp)
  | some x =>
    simp only [h]
    exact congrArg μ (normIndex_injOn (List.mem_of_find?_eq_some h) hv (by simpa using List.find?_some h))

/-- Modelled from the spec: the variables of a rule are dense from `0`, the rule invariant the
rule manager keeps by normalising. -/
def DenseVars (r : Rule) : Prop := ∀ v ∈ r.vars, ∀ u < v, u ∈ r.vars

instance : DecidablePred DenseVars := fun r =>
  inferInstanceAs (Decidable (∀ v ∈ r.vars, ∀ u < v, u ∈ r.vars))

/-- Renumbering leaves a rule with dense variables as it is. -/
lemma normVars_eq_self {r : Rule} (h : r.DenseVars) : r.normVars = r := by
  refine subst_eq_self fun v hv => congrArg Term.var ?_
  have hperm : List.Perm (r.vars.dedup.filter (· < v)) (List.range v) :=
    (List.perm_ext_iff_of_nodup ((List.nodup_dedup _).filter _) (List.nodup_range v)).mpr
      fun u => by simpa using fun hu => h v hv u hu
  exact hperm.length_eq.trans (List.length_range v)

/-- Renumbering gives dense variables: the indices of the variables are `0, …, n - 1`. -/
lemma denseVars_normVars (r : Rule) : r.normVars.DenseVars := by
  have himage : r.vars.dedup.toFinset.image r.normIndex = Finset.range r.vars.dedup.length := by
    refine Finset.eq_of_subset_of_card_le (fun w hw => ?_) ?_
    · obtain ⟨x, hx, rfl⟩ := Finset.mem_image.mp hw
      exact Finset.mem_range.mpr (normIndex_lt_length (List.mem_dedup.mp (List.mem_toFinset.mp hx)))
    · rw [Finset.card_range, Finset.card_image_of_injOn fun x hx y hy =>
        normIndex_injOn (by simpa using hx) (by simpa using hy),
        List.toFinset_card_of_nodup (List.nodup_dedup _)]
  intro w hw u hu
  rw [normVars_eq, vars_subst_var] at hw ⊢
  obtain ⟨v, hv, rfl⟩ := List.mem_map.mp hw
  have hu' : u ∈ r.vars.dedup.toFinset.image r.normIndex :=
    himage ▸ Finset.mem_range.mpr (hu.trans (normIndex_lt_length hv))
  obtain ⟨x, hx, rfl⟩ := Finset.mem_image.mp hu'
  exact List.mem_map.mpr ⟨x, List.mem_dedup.mp (List.mem_toFinset.mp hx), rfl⟩

end Rule

end RuleInliner
