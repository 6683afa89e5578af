import RuleInliner.Syntax.Rule
import Mathlib.Logic.Relation
import Mathlib.Data.List.Sort

/-!
# Stratification

The stratifier of a rule set (z3 `rule_dependencies`, `rule_stratifier` and
`rule_set::close`), which the pass uses but whose code is not in the source; it is
modelled from the spec: "partition a rule set into SCCs of the dependency graph in
topological order; look up a predicate's stratum index". As in z3, the dependency graph has
an edge from the head predicate of every rule to each predicate of its uninterpreted tail,
positive or negated, and its vertices are all these predicates. `close` succeeds exactly
when no negated tail atom lies in the stratum of its rule's head (`stratified_negation`).

Reachability is Warshall's closure (`warshall`, proved against `PathThrough`); a stratum
is the class of a predicate under mutual reachability (`stratumOf`), and strata are sorted
by the number of predicates their members reach, which puts every stratum after the strata
it depends on (`getPredicateStrat_le`).
-/

namespace RuleInliner

section Warshall
variable {α : Type}

/-- One round of Warshall's closure: also allow paths through `k`. -/
def warshallStep (R : α → α → Bool) (k : α) : α → α → Bool :=
  fun p q => R p q || (R p k && R k q)

/-- Warshall's transitive closure of `R`, allowing paths through the vertices `ks`. -/
def warshall (R : α → α → Bool) : List α → α → α → Bool
  | [] => R
  | k :: ks => warshall (warshallStep R k) ks

/-- Non-empty paths of `E` whose intermediate vertices satisfy `S`. -/
inductive PathThrough (E : α → α → Prop) (S : α → Prop) : α → α → Prop
  | edge {p q} : E p q → PathThrough E S p q
  | via {p k q} : S k → PathThrough E S p k → PathThrough E S k q → PathThrough E S p q

variable {E : α → α → Prop} {S : α → Prop}

/-- Allowing more intermediate vertices keeps every path. -/
lemma PathThrough.mono {S' : α → Prop} (h : ∀ x, S x → S' x) {p q : α}
    (hp : PathThrough E S p q) : PathThrough E S' p q := by
  induction hp with
  | edge e => exact .edge e
  | via hk _ _ ih1 ih2 => exact .via (h _ hk) ih1 ih2

/-- A path is a chain of edges. -/
lemma PathThrough.transGen {p q : α} (hp : PathThrough E S p q) : Relation.TransGen E p q := by
  induction hp with
  | edge e => exact .single e
  | via _ _ _ ih1 ih2 => exact ih1.trans ih2

/-- A path allowed through `k` as well either avoids `k` or splits at it. -/
lemma PathThrough.split {k p q : α} (hp : PathThrough E (fun x => S x ∨ x = k) p q) :
    PathThrough E S p q ∨ (PathThrough E S p k ∧ PathThrough E S k q) := by
  induction hp with
  | edge e => exact .inl (.edge e)
  | @via p k' q hk' _ _ ih1 ih2 =>
    rcases hk' with hk' | rfl
    · rcases ih1 with h1 | ⟨h1, h1'⟩ <;> rcases ih2 with h2 | ⟨h2, h2'⟩
      · exact .inl (.via hk' h1 h2)
      · exact .inr ⟨.via hk' h1 h2, h2'⟩
      · exact .inr ⟨h1, .via hk' h1' h2⟩
      · exact .inr ⟨h1, h2'⟩
    · exact .inr ⟨ih1.elim id (·.1), ih2.elim id (·.2)⟩

/-- Warshall's closure computes the paths through the vertices it was given. -/
lemma warshall_iff {R : α → α → Bool} (hR : ∀ p q, R p q = true ↔ PathThrough E S p q) :
    ∀ (ks : List α) (p q : α),
      warshall R ks p q = true ↔ PathThrough E (fun x => S x ∨ x ∈ ks) p q := by
  intro ks
  induction ks generalizing R S with
  | nil => simpa [warshall] using hR
  | cons k ks ih =>
    have hstep : ∀ p q,
        warshallStep R k p q = true ↔ PathThrough E (fun x => S x ∨ x = k) p q := by
      intro p q
      simp only [warshallStep, Bool.or_eq_true, Bool.and_eq_true, hR]
      constructor
      · rintro (h | ⟨h1, h2⟩)
        · exact h.mono fun _ hx => .inl hx
        · exact .via (.inr rfl) (h1.mono fun _ hx => .inl hx) (h2.mono fun _ hx => .inl hx)
      · exact PathThrough.split
    intro p q
    rw [warshall, ih hstep]
    simp only [List.mem_cons, or_assoc]

end Warshall

/-- Two functions that agree on a list find the same first index in it. -/
lemma findIdx_congr {α : Type} {f g : α → Bool} :
    ∀ {l : List α}, (∀ x ∈ l, f x = g x) → l.findIdx f = l.findIdx g
  | [], _ => rfl
  | x :: l, h => by
    simp only [List.findIdx_cons, h x (List.mem_cons_self _ _),
      findIdx_congr fun y hy => h y (List.mem_cons_of_mem _ hy)]

/-- Two members of a list of at most one element are equal. -/
lemma eq_of_length_le_one {α : Type} :
    ∀ {l : List α}, l.length ≤ 1 → ∀ {a b : α}, a ∈ l → b ∈ l → a = b
  | [_], _, _, _, ha, hb => (List.mem_singleton.mp ha).trans (List.mem_singleton.mp hb).symm
  | [], _, _, _, ha, _ => absurd ha (List.not_mem_nil _)
  | _ :: _ :: _, h, _, _, _, _ => absurd h (by simp)

lemma eq_singleton_of_length_le_one {α : Type} {l : List α} {a : α} (h : l.length ≤ 1)
    (ha : a ∈ l) : l = [a] := by
  obtain ⟨x, rfl⟩ : ∃ x, l = [x] := List.length_eq_one.mp (le_antisymm h (List.length_pos_of_mem ha))
  rw [List.mem_singleton.mp ha]

namespace RuleSet
variable (X : RuleSet)

/-- The vertices of the dependency graph: head and uninterpreted tail predicates. -/
def preds : List Pred := (X.flatMap fun r => r.decl :: r.tailPreds).dedup

/-- `p` depends on `q`: some rule with head `p` has `q` in its uninterpreted tail. -/
def Dep (p q : Pred) : Prop := ∃ r ∈ X, r.decl = p ∧ q ∈ r.tailPreds

/-- The dependency edges, as a test. -/
def depends (p q : Pred) : Bool := X.any fun r => r.decl = p && q ∈ r.tailPreds

/-- `q` is reachable from `p` by one or more dependency edges. -/
def reaches : Pred → Pred → Bool := warshall X.depends X.preds

/-- `p` and `q` lie in one strongly connected component. -/
def sameStratum (p q : Pred) : Bool := p = q || (X.reaches p q && X.reaches q p)

/-- The number of predicates reachable from `p`, `p` included. -/
def key (p : Pred) : Nat := (X.preds.filter fun q => p = q || X.reaches p q).length

/-- The key of a stratum, read off its first predicate. -/
def stratumKey : List Pred → Nat
  | [] => 0
  | p :: _ => X.key p

/-- The predicates in the stratum of `p`. -/
def stratumOf (p : Pred) : List Pred := X.preds.filter (X.sameStratum p)

/-- Modelled from the spec: the strata in topological order (`rule_stratifier::get_strats`). -/
def strats : List (List Pred) :=
  ((X.preds.map X.stratumOf).dedup).insertionSort
    (fun g h => X.stratumKey g ≤ X.stratumKey h)

/-- Modelled from the spec: the index of the stratum of `p`
(`rule_stratifier::get_predicate_strat`). -/
def getPredicateStrat (p : Pred) : Nat := X.strats.findIdx fun g => p ∈ g

/-- Modelled from the spec: no negated tail atom shares the stratum of its rule's head
(`rule_set::stratified_negation`). -/
def stratifiedNegation : Bool :=
  X.all fun r => r.neg.all fun a => X.getPredicateStrat a.pred ≠ X.getPredicateStrat r.decl

/-- Modelled from the spec: `rule_set::close` computes the stratification and fails on a
negation cycle. -/
def close : Bool := X.stratifiedNegation

variable {X}

lemma depends_iff {p q : Pred} : X.depends p q = true ↔ X.Dep p q := by
  simp [depends, Dep]

/-- Both ends of a dependency edge are vertices. -/
lemma mem_preds_of_dep {p q : Pred} (h : X.Dep p q) : p ∈ X.preds ∧ q ∈ X.preds := by
  obtain ⟨r, hr, rfl, hq⟩ := h
  simp only [preds, List.mem_dedup, List.mem_flatMap, List.mem_cons]
  exact ⟨⟨r, hr, .inl rfl⟩, ⟨r, hr, .inr hq⟩⟩

/-- `reaches` is the transitive closure of the dependency relation. -/
lemma reaches_iff {p q : Pred} : X.reaches p q = true ↔ Relation.TransGen X.Dep p q := by
  have base : ∀ p q, X.depends p q = true ↔ PathThrough X.Dep (fun _ => False) p q := by
    intro p q
    rw [depends_iff]
    constructor
    · exact .edge
    · intro h
      cases h with
      | edge e => exact e
      | via hk => exact hk.elim
  rw [reaches, warshall_iff base]
  constructor
  · exact PathThrough.transGen
  · intro h
    induction h with
    | single e => exact .edge e
    | tail _ e ih => exact .via (.inr (mem_preds_of_dep e).1) ih (.edge e)

lemma sameStratum_iff {p q : Pred} : X.sameStratum p q = true ↔
    p = q ∨ (Relation.TransGen X.Dep p q ∧ Relation.TransGen X.Dep q p) := by
  simp [sameStratum, reaches_iff]

lemma sameStratum_refl (p : Pred) : X.sameStratum p p = true := by simp [sameStratum]

lemma sameStratum_symm {p q : Pred} (h : X.sameStratum p q = true) :
    X.sameStratum q p = true := by
  rw [sameStratum_iff] at h ⊢
  rcases h with rfl | ⟨h1, h2⟩
  · exact .inl rfl
  · exact .inr ⟨h2, h1⟩

lemma sameStratum_trans {p q s : Pred} (h1 : X.sameStratum p q = true)
    (h2 : X.sameStratum q s = true) : X.sameStratum p s = true := by
  rw [sameStratum_iff] at h1 h2 ⊢
  rcases h1 with rfl | ⟨a1, b1⟩
  · exact h2
  rcases h2 with rfl | ⟨a2, b2⟩
  · exact .inr ⟨a1, b1⟩
  · by_cases e : p = s
    · exact .inl e
    · exact .inr ⟨a1.trans a2, b2.trans b1⟩

/-- Whatever `q` reaches, a predicate reaching `q` reaches too. -/
lemma key_le_of_transGen {p q : Pred} (h : Relation.TransGen X.Dep p q) : X.key q ≤ X.key p := by
  refine (List.monotone_filter_right _ fun x hx => ?_).length_le
  simp only [Bool.or_eq_true, decide_eq_true_eq, reaches_iff] at hx ⊢
  rcases hx with rfl | hx
  · exact .inr h
  · exact .inr (h.trans hx)

lemma key_eq_of_sameStratum {p q : Pred} (h : X.sameStratum p q = true) : X.key p = X.key q := by
  rcases sameStratum_iff.mp h with rfl | ⟨h1, h2⟩
  · rfl
  · exact le_antisymm (key_le_of_transGen h2) (key_le_of_transGen h1)

/-- A predicate reaching `q` with no more reachable predicates than `q` lies in its stratum. -/
lemma sameStratum_of_key_eq {p q : Pred} (hp : p ∈ X.preds) (h : Relation.TransGen X.Dep p q)
    (e : X.key q = X.key p) : X.sameStratum p q = true := by
  have hsub : List.Sublist (X.preds.filter fun x => q = x || X.reaches q x)
      (X.preds.filter fun x => p = x || X.reaches p x) := by
    refine List.monotone_filter_right _ fun x hx => ?_
    simp only [Bool.or_eq_true, decide_eq_true_eq, reaches_iff] at hx ⊢
    rcases hx with rfl | hx
    · exact .inr h
    · exact .inr (h.trans hx)
  have hmem : p ∈ X.preds.filter fun x => q = x || X.reaches q x := by
    rw [hsub.eq_of_length e]
    simp [hp]
  simp only [List.mem_filter, Bool.or_eq_true, decide_eq_true_eq, reaches_iff] at hmem
  rcases hmem.2 with rfl | h'
  · exact sameStratum_refl _
  · exact sameStratum_iff.mpr (.inr ⟨h, h'⟩)

lemma mem_stratumOf {p q : Pred} : q ∈ X.stratumOf p ↔ q ∈ X.preds ∧ X.sameStratum p q = true :=
  List.mem_filter

lemma stratumOf_eq {p q : Pred} (h : X.sameStratum p q = true) : X.stratumOf p = X.stratumOf q :=
  List.filter_congr fun _ _ => Bool.eq_iff_iff.mpr
    ⟨fun hx => sameStratum_trans (sameStratum_symm h) hx, fun hx => sameStratum_trans h hx⟩

lemma mem_strats {g : List Pred} : g ∈ X.strats ↔ ∃ p ∈ X.preds, X.stratumOf p = g := by
  simp [strats, (List.perm_insertionSort _ _).mem_iff]

/-- A stratum is the stratum of each of its members. -/
lemma eq_stratumOf {g : List Pred} {p : Pred} (hg : g ∈ X.strats) (hp : p ∈ g) :
    g = X.stratumOf p := by
  obtain ⟨q, -, rfl⟩ := mem_strats.mp hg
  exact stratumOf_eq (mem_stratumOf.mp hp).2

lemma stratumKey_eq {g : List Pred} {p : Pred} (hg : g ∈ X.strats) (hp : p ∈ g) :
    X.stratumKey g = X.key p := by
  match g, hp with
  | h :: t, hp =>
    have hh : h ∈ X.stratumOf p := eq_stratumOf hg hp ▸ List.mem_cons_self _ _
    exact key_eq_of_sameStratum (sameStratum_symm (mem_stratumOf.mp hh).2)

lemma strats_sorted :
    List.Sorted (fun g h => X.stratumKey g ≤ X.stratumKey h) X.strats := by
  haveI : IsTotal (List Pred) (fun g h => X.stratumKey g ≤ X.stratumKey h) :=
    ⟨fun _ _ => le_total _ _⟩
  haveI : IsTrans (List Pred) (fun g h => X.stratumKey g ≤ X.stratumKey h) :=
    ⟨fun _ _ _ => le_trans⟩
  exact List.sorted_insertionSort _ _

/-- Every vertex lies in the stratum `getPredicateStrat` names. -/
lemma getPredicateStrat_spec {p : Pred} (hp : p ∈ X.preds) :
    ∃ h : X.getPredicateStrat p < X.strats.length, p ∈ X.strats[X.getPredicateStrat p] := by
  have hex : ∃ g ∈ X.strats, decide (p ∈ g) = true :=
    ⟨X.stratumOf p, mem_strats.mpr ⟨p, hp, rfl⟩, by simp [mem_stratumOf, hp, sameStratum_refl]⟩
  have hlt := List.findIdx_lt_length_of_exists hex
  exact ⟨hlt, of_decide_eq_true (List.findIdx_getElem (w := hlt))⟩

/-- Two vertices share a stratum index exactly when they are mutually reachable. -/
lemma getPredicateStrat_eq_iff {p q : Pred} (hp : p ∈ X.preds) (hq : q ∈ X.preds) :
    X.getPredicateStrat p = X.getPredicateStrat q ↔ X.sameStratum p q = true := by
  constructor
  · intro e
    obtain ⟨hlt, hmem⟩ := getPredicateStrat_spec hp
    obtain ⟨_, hmem'⟩ := getPredicateStrat_spec hq
    have hg := List.getElem_mem hlt
    simp only [e] at hmem hg
    rw [eq_stratumOf hg hmem'] at hmem
    exact sameStratum_symm (mem_stratumOf.mp hmem).2
  · intro h
    refine findIdx_congr fun g hg => ?_
    simp only [decide_eq_decide]
    constructor <;> intro hx
    · rw [eq_stratumOf hg hx, stratumOf_eq h]
      exact mem_stratumOf.mpr ⟨hq, sameStratum_refl q⟩
    · rw [eq_stratumOf hg hx, ← stratumOf_eq h]
      exact mem_stratumOf.mpr ⟨hp, sameStratum_refl p⟩

/-- Strata come in topological order: a predicate's stratum is never below the stratum of a
predicate it depends on. -/
lemma getPredicateStrat_le {p q : Pred} (h : X.Dep p q) :
    X.getPredicateStrat q ≤ X.getPredicateStrat p := by
  obtain ⟨hp, hq⟩ := mem_preds_of_dep h
  by_contra hlt
  push_neg at hlt
  obtain ⟨hi, hpi⟩ := getPredicateStrat_spec hp
  obtain ⟨hj, hqj⟩ := getPredicateStrat_spec hq
  have hsort := strats_sorted.rel_get_of_lt (a := ⟨_, hi⟩) (b := ⟨_, hj⟩) hlt
  simp only [List.get_eq_getElem] at hsort
  rw [stratumKey_eq (List.getElem_mem hi) hpi, stratumKey_eq (List.getElem_mem hj) hqj] at hsort
  have hss := sameStratum_of_key_eq hp (.single h)
    (le_antisymm (key_le_of_transGen (.single h)) hsort)
  exact absurd ((getPredicateStrat_eq_iff hp hq).mpr hss) (Nat.ne_of_lt hlt)

lemma decl_mem_preds {r : Rule} (hr : r ∈ X) : r.decl ∈ X.preds := by
  simp only [preds, List.mem_dedup, List.mem_flatMap, List.mem_cons]
  exact ⟨r, hr, .inl rfl⟩

lemma self_mem_stratumOf {p : Pred} (hp : p ∈ X.preds) : p ∈ X.stratumOf p :=
  mem_stratumOf.mpr ⟨hp, sameStratum_refl p⟩

lemma strats_nodup : X.strats.Nodup :=
  (List.perm_insertionSort _ _).nodup_iff.mpr (List.nodup_dedup _)

/-- Strata are disjoint: a member of one stratum is in no other. -/
lemma not_mem_of_strats_eq {p : Pred} {g : List Pred} {pre post : List (List Pred)}
    (hs : X.strats = pre ++ g :: post) (hp : p ∈ g) : ∀ g' ∈ pre ++ post, p ∉ g' := by
  intro g' hg' hpg'
  have hnd := X.strats_nodup
  rw [hs, List.nodup_middle] at hnd
  have hgS : g ∈ X.strats := hs ▸ List.mem_append_right _ (List.mem_cons_self _ _)
  have hgS' : g' ∈ X.strats := hs ▸ List.mem_append.mpr ((List.mem_append.mp hg').imp id
    (List.mem_cons_of_mem _))
  rw [eq_stratumOf hgS' hpg', ← eq_stratumOf hgS hp] at hg'
  exact (List.nodup_cons.mp hnd).1 hg'

/-- When every stratum holds one predicate, the stratum of `p` is `[p]`. -/
lemma stratumOf_eq_singleton (hsingle : ∀ g ∈ X.strats, g.length ≤ 1) {p : Pred}
    (hp : p ∈ X.preds) : X.stratumOf p = [p] :=
  eq_singleton_of_length_le_one (hsingle _ (mem_strats.mpr ⟨p, hp, rfl⟩)) (self_mem_stratumOf hp)

/-- When every stratum holds one predicate, the stratum of `p` comes after the stratum of
every other predicate `p` depends on. -/
lemma not_mem_of_dep (hsingle : ∀ g ∈ X.strats, g.length ≤ 1) {p q : Pred} (h : X.Dep p q)
    (hpq : q ≠ p) {pre post : List (List Pred)} (hs : X.strats = pre ++ X.stratumOf p :: post) :
    ∀ g ∈ post, q ∉ g := by
  intro g hg hq
  obtain ⟨hp, hq'⟩ := mem_preds_of_dep h
  have hsorted := X.strats_sorted
  rw [hs] at hsorted
  have hle := (List.pairwise_cons.mp (List.pairwise_append.mp hsorted).2.1).1 g hg
  have hpS : X.stratumOf p ∈ X.strats := mem_strats.mpr ⟨p, hp, rfl⟩
  have hgS : g ∈ X.strats := hs ▸ List.mem_append_right _ (List.mem_cons_of_mem _ hg)
  rw [stratumKey_eq hpS (self_mem_stratumOf hp), stratumKey_eq hgS hq] at hle
  have hss := sameStratum_of_key_eq hp (.single h)
    (le_antisymm (key_le_of_transGen (.single h)) hle)
  exact hpq (eq_of_length_le_one (hsingle _ hpS) (mem_stratumOf.mpr ⟨hq', hss⟩)
    (self_mem_stratumOf hp))

/-- Both ends of a path are vertices. -/
lemma mem_preds_of_transGen {p q : Pred} (h : Relation.TransGen X.Dep p q) :
    p ∈ X.preds ∧ q ∈ X.preds := by
  obtain ⟨_, hm, -⟩ := Relation.TransGen.head'_iff.mp h
  obtain ⟨_, -, hm'⟩ := Relation.TransGen.tail'_iff.mp h
  exact ⟨(mem_preds_of_dep hm).1, (mem_preds_of_dep hm').2⟩

/-- When every stratum holds one predicate, no cycle passes through two predicates. -/
lemma eq_of_transGen_of_strats (hsingle : ∀ g ∈ X.strats, g.length ≤ 1) {p q : Pred}
    (h₁ : Relation.TransGen X.Dep p q) (h₂ : Relation.TransGen X.Dep q p) : p = q := by
  obtain ⟨hp, hq⟩ := mem_preds_of_transGen h₁
  exact eq_of_length_le_one (hsingle _ (mem_strats.mpr ⟨p, hp, rfl⟩)) (self_mem_stratumOf hp)
    (mem_stratumOf.mpr ⟨hq, sameStratum_iff.mpr (.inr ⟨h₁, h₂⟩)⟩)

lemma Dep.mono {Y : RuleSet} (hsub : ∀ r ∈ Y, r ∈ X) {p q : Pred} (h : Y.Dep p q) : X.Dep p q :=
  let ⟨r, hr, hp, hq⟩ := h
  ⟨r, hsub r hr, hp, hq⟩

/-- A subset of a rule set whose strata hold one predicate each has the same property. -/
lemma strats_length_le_one_of_subset {Y : RuleSet} (hsub : ∀ r ∈ Y, r ∈ X)
    (hsingle : ∀ g ∈ X.strats, g.length ≤ 1) : ∀ g ∈ Y.strats, g.length ≤ 1 := by
  intro g hg
  obtain ⟨p, -, rfl⟩ := mem_strats.mp hg
  have hsub' : Y.stratumOf p ⊆ [p] := fun q hq => by
    rcases sameStratum_iff.mp (mem_stratumOf.mp hq).2 with rfl | ⟨h₁, h₂⟩
    · exact List.mem_singleton_self _
    · exact List.mem_singleton.mpr (eq_of_transGen_of_strats hsingle
        (h₁.mono fun _ _ => Dep.mono hsub) (h₂.mono fun _ _ => Dep.mono hsub)).symm
  exact (List.subperm_of_subset ((List.nodup_dedup _).filter _) hsub').length_le

/-- Strata are not empty. -/
lemma length_pos_of_mem_strats {g : List Pred} (hg : g ∈ X.strats) : 0 < g.length := by
  obtain ⟨p, hp, rfl⟩ := mem_strats.mp hg
  exact List.length_pos_of_mem (self_mem_stratumOf hp)

end RuleSet

end RuleInliner
