import RuleInliner.Planner.Multipliers
import RuleInliner.Bulk.Termination

/-!
# How many rules bulk inlining builds

`transform_rule` replaces a rule by its resolvents at the first admissible positive tail
atom, one per rule of the lookup set defining it. Every rule of the lookup set has no
admissible positive tail atom, so a resolvent keeps the other admissible atoms of its parent
and gains none. If every admissible `q` has at most `b q` rules to inline, the rules one call
adds are therefore at most the product of `b` over the admissible positive tail predicates
of the rule (`weight`, `transformRuleLoop_count`).

`plan_inlining` fills `m_inlined_rules` stratum by stratum, and the guarantees of the
multiplier guard (`planCandidates_multipliers`) bound what each stratum adds: an admissible
`q` ends with at most `max 1 m_head_pred_ctr[q]` rules (`fill_count`). A rule of `q` with a
tail atom over `q` itself is the only rule of `q`, and its call adds nothing
(`transformRuleLoop_stuck`): `m_inlined_rules` has no rule of `q` to resolve it with while
the call runs. With at most one multiplier per rule, and counts of at most four,
`transform_rules` then builds at most four rules per input rule
(`transformRules_multiplier_bound`).
-/

namespace RuleInliner

section Weight
variable (adm : Pred → Bool) (b : Pred → Nat)

/-- The product of the bounds `b q` over the admissible predicates `q` among `ps`. -/
def weight (ps : List Pred) : Nat := ps.foldr (fun q n => (if adm q then b q else 1) * n) 1

/-- The sum of the weights of the positive tail predicates of the rules of a worklist. -/
def worklistWeight : List Rule → Nat
  | [] => 0
  | t :: ts => weight adm b (t.pos.map Atom.pred) + worklistWeight ts

variable {adm b}

@[simp] lemma weight_nil : weight adm b [] = 1 := rfl

@[simp] lemma weight_cons (q : Pred) (ps : List Pred) :
    weight adm b (q :: ps) = (if adm q then b q else 1) * weight adm b ps := rfl

lemma weight_append (l₁ l₂ : List Pred) :
    weight adm b (l₁ ++ l₂) = weight adm b l₁ * weight adm b l₂ := by
  induction l₁ with
  | nil => simp
  | cons q l ih => simp [ih, Nat.mul_assoc]

lemma weight_eq_one {ps : List Pred} (h : ∀ q ∈ ps, adm q = false) : weight adm b ps = 1 := by
  induction ps with
  | nil => rfl
  | cons q ps ih =>
    rw [List.forall_mem_cons] at h
    simp [h.1, ih h.2]

section
variable (hb : ∀ q, 1 ≤ b q)
include hb

lemma one_le_factor (q : Pred) : 1 ≤ if adm q then b q else 1 := by
  split
  · exact hb q
  · exact le_rfl

lemma one_le_weight (ps : List Pred) : 1 ≤ weight adm b ps := by
  induction ps with
  | nil => exact le_rfl
  | cons q ps ih => simpa using Nat.mul_le_mul (one_le_factor hb q) ih

/-- Dropping predicates never raises the weight. -/
lemma weight_le_of_sublist {l₁ l₂ : List Pred} (h : List.Sublist l₁ l₂) :
    weight adm b l₁ ≤ weight adm b l₂ := by
  induction h with
  | slnil => exact le_rfl
  | cons q _ ih => exact ih.trans (Nat.le_mul_of_pos_left _ (one_le_factor hb q))
  | cons₂ q _ ih => exact Nat.mul_le_mul_left _ ih

end

/-- The weight splits off the factor of the predicate at any position. -/
lemma weight_eraseIdx :
    ∀ (l : List Pred) (i : Nat) (hi : i < l.length),
      weight adm b l = (if adm l[i] then b l[i] else 1) * weight adm b (l.eraseIdx i)
  | _ :: _, 0, _ => rfl
  | q :: l, i + 1, hi => by
    simp only [weight_cons, List.eraseIdx_cons_succ, List.getElem_cons_succ,
      weight_eraseIdx l i (by simpa using hi), Nat.mul_left_comm]

lemma worklistWeight_append (l₁ l₂ : List Rule) :
    worklistWeight adm b (l₁ ++ l₂) = worklistWeight adm b l₁ + worklistWeight adm b l₂ := by
  induction l₁ with
  | nil => simp [worklistWeight]
  | cons t l ih => rw [List.cons_append, worklistWeight, worklistWeight, ih, Nat.add_assoc]

lemma worklistWeight_le {m : Nat} :
    ∀ {l : List Rule}, (∀ t ∈ l, weight adm b (t.pos.map Atom.pred) ≤ m) →
      worklistWeight adm b l ≤ l.length * m
  | [], _ => by simp [worklistWeight]
  | t :: l, h => by
    have := worklistWeight_le fun t' ht' => h t' (List.mem_cons_of_mem _ ht')
    simp only [worklistWeight, List.length_cons, Nat.succ_mul]
    have := h t (List.mem_cons_self _ _)
    omega

/-- With the bound `max 1 (c q)`, the weight is the product of the counts above one. -/
lemma weight_max_eq (c : Pred → Nat) :
    ∀ as : List Atom, weight adm (fun q => max 1 (c q)) (as.map Atom.pred) =
      ((as.filter fun a => adm a.pred && 1 < c a.pred).map fun a => c a.pred).foldr (· * ·) 1
  | [] => rfl
  | a :: as => by
    rw [List.map_cons, weight_cons, weight_max_eq c as, List.filter_cons]
    by_cases ha : adm a.pred = true <;> by_cases hc : 1 < c a.pred
    · simp [ha, hc, Nat.max_eq_right hc.le]
    · simp [ha, hc, Nat.max_eq_left (Nat.le_of_not_lt hc)]
    all_goals simp [ha]

/-- A product of at most one factor, each at most `m`, is at most `max 1 m`. -/
lemma foldr_mul_le_of_length_le_one {l : List Nat} {m : Nat} (h : l.length ≤ 1)
    (hm : ∀ x ∈ l, x ≤ m) : l.foldr (· * ·) 1 ≤ max 1 m := by
  match l, h with
  | [], _ => exact Nat.le_max_left _ _
  | [x], _ =>
    rw [List.foldr_cons, List.foldr_nil, Nat.mul_one]
    exact (hm x (List.mem_singleton_self x)).trans (Nat.le_max_right 1 m)

end Weight

lemma length_inlineAll_le {ctx : Context} {r : Rule} {i : Nat} :
    ∀ (cv : Converters) (srcs : List Rule), (inlineAll ctx r i cv srcs).1.length ≤ srcs.length
  | _, [] => le_rfl
  | cv, src :: srcs => by
    simp only [inlineAll, List.length_append, List.length_cons]
    have : (inlineAll ctx r i (tryToInlineRule ctx cv r src i).2 srcs).1.length ≤ srcs.length :=
      length_inlineAll_le _ srcs
    have h1 : (tryToInlineRule ctx cv r src i).1.toList.length ≤ 1 := by
      cases (tryToInlineRule ctx cv r src i).1 <;> simp
    omega

section Loop
variable {ctx : Context} {st : Inliner} {self : Bool}

/-- How many rules one call of `transform_rule` adds. Its lookup set has no admissible
positive tail atom; the rules on its worklist have head `h` and no admissible tail atom over
`h`; and every other admissible `q` has at most `b q` rules in the lookup set. Then it adds at
most the weight of the worklist, in rules with head `h` and no admissible positive tail atom.
When the lookup set is the target itself (`self`, the calls of `plan_inlining`), what it adds
changes no lookup but those of `h`, which it never makes. -/
theorem transformRuleLoop_count (b : Pred → Nat) (hb : ∀ q, 1 ≤ b q) (h : Pred) :
    ∀ (n : Nat) (todo : List Rule) (tgt : RuleSet) (modified : Bool) (cv : Converters)
      {out : RuleSet × Bool × Converters},
      (self = false → ∀ s ∈ st.inlinedRules, PosClean (st.inliningAllowed ctx) s) →
      (self = true → ∀ s ∈ tgt, PosClean (st.inliningAllowed ctx) s) →
      (∀ q, st.inliningAllowed ctx q = true → q ≠ h →
        ((if self then tgt else st.inlinedRules).predicateRules q).length ≤ b q) →
      (∀ t ∈ todo, t.decl = h ∧ ∀ a ∈ t.pos, st.inliningAllowed ctx a.pred = true → a.pred ≠ h) →
      transformRuleLoop ctx st self n todo tgt modified cv = .ok out →
      ∃ added, out.1 = tgt ++ added ∧
        (∀ c ∈ added, c.decl = h ∧ PosClean (st.inliningAllowed ctx) c) ∧
        added.length ≤ worklistWeight (st.inliningAllowed ctx) b todo
  | 0, _, _, _, _, _, _, _, _, _, hrun => by cases hrun
  | _ + 1, [], tgt, _, _, _, _, _, _, _, hrun => by
    cases hrun
    exact ⟨[], by simp, by simp, by simp [worklistWeight]⟩
  | n + 1, t :: todo, tgt, modified, cv, out, hinl, htgt, hlook, htodo, hrun => by
    have htodo' := fun t' ht' => htodo t' (List.mem_cons_of_mem _ ht')
    obtain ⟨hdecl, hnoh⟩ := htodo t (List.mem_cons_self _ _)
    rcases @transformRuleLoop_cons_cases ctx st self t with
      ⟨-, e⟩ | ⟨-, hclean, e⟩ | ⟨-, i, hi, hadm, e⟩ <;> rw [e] at hrun
    · -- the rule is dropped
      obtain ⟨added, hout, hadd, hlen⟩ :=
        transformRuleLoop_count b hb h n todo tgt modified cv hinl htgt hlook htodo' hrun
      exact ⟨added, hout, hadd, hlen.trans (by simp only [worklistWeight]; omega)⟩
    · -- nothing to inline: the rule goes to the target
      have hlook' : ∀ q, st.inliningAllowed ctx q = true → q ≠ h →
          ((if self then tgt ++ [t] else st.inlinedRules).predicateRules q).length ≤ b q := by
        intro q hq hne
        have := hlook q hq hne
        cases self
        · exact this
        · simpa [RuleSet.predicateRules, List.filter_append, hdecl, Ne.symm hne] using this
      obtain ⟨added, hout, hadd, hlen⟩ := transformRuleLoop_count b hb h n todo (tgt ++ [t]) modified
        cv hinl (fun hs s hs' => (List.mem_append.mp hs').elim (htgt hs s)
          fun e => List.mem_singleton.mp e ▸ hclean) hlook' htodo' hrun
      refine ⟨t :: added, by simpa using hout, fun c hc => ?_, ?_⟩
      · rcases List.mem_cons.mp hc with rfl | hc
        · exact ⟨hdecl, hclean⟩
        · exact hadd c hc
      · have : 1 ≤ weight (st.inliningAllowed ctx) b (t.pos.map Atom.pred) := one_le_weight hb _
        simp only [worklistWeight, List.length_cons]
        omega
    · -- resolve with every rule of the lookup set defining the admissible atom `i`
      have hne : t.pos[i].pred ≠ h := hnoh _ (List.getElem_mem hi) hadm
      have hsrcs : ∀ s ∈ (if self then tgt else st.inlinedRules),
          PosClean (st.inliningAllowed ctx) s := by
        cases self
        · exact hinl rfl
        · exact htgt rfl
      obtain ⟨res, hres⟩ : ∃ res, inlineAll ctx t i cv
          ((if self then tgt else st.inlinedRules).predicateRules t.pos[i].pred) = res := ⟨_, rfl⟩
      rw [hres] at hrun
      -- a resolvent keeps the head and the admissible atoms of `t` but the resolved one
      have hchild : ∀ c ∈ res.1.reverse,
          (c.decl = h ∧ ∀ x ∈ c.pos, st.inliningAllowed ctx x.pred = true → x.pred ≠ h) ∧
          weight (st.inliningAllowed ctx) b (c.pos.map Atom.pred) ≤
            weight (st.inliningAllowed ctx) b ((t.pos.map Atom.pred).eraseIdx i) := by
        intro c hc
        obtain ⟨src, hs, _, _, htry⟩ := mem_inlineAll (hres ▸ List.mem_reverse.mp hc)
        obtain ⟨-, -, hd, hpos, -⟩ := tryToInlineRule_shape htry
        have hsrc : PosClean (st.inliningAllowed ctx) src := hsrcs src (List.mem_filter.mp hs).1
        refine ⟨⟨hd.trans hdecl, fun x hx hxa => ?_⟩, ?_⟩
        · rcases List.mem_append.mp (hpos.subset (List.mem_map_of_mem Atom.pred hx)) with h' | h'
          · obtain ⟨y, hy, hyx⟩ := List.mem_map.mp (List.mem_of_mem_eraseIdx h')
            rw [← hyx] at hxa ⊢
            exact hnoh y hy hxa
          · obtain ⟨y, hy, hyx⟩ := List.mem_map.mp h'
            rw [← hyx, hsrc y hy] at hxa
            cases hxa
        · have h1 : weight (st.inliningAllowed ctx) b (src.pos.map Atom.pred) = 1 :=
            weight_eq_one fun q hq => by
              obtain ⟨y, hy, rfl⟩ := List.mem_map.mp hq
              exact hsrc y hy
          refine (weight_le_of_sublist hb hpos).trans (le_of_eq ?_)
          rw [weight_append, h1, Nat.mul_one]
      obtain ⟨added, hout, hadd, hlen⟩ := transformRuleLoop_count b hb h n (res.1.reverse ++ todo) tgt
        true res.2 hinl htgt hlook (fun c hc => (List.mem_append.mp hc).elim (fun hc => (hchild c hc).1)
          (htodo' c)) hrun
      refine ⟨added, hout, hadd, hlen.trans ?_⟩
      -- the resolvents number at most `b`, and each weighs the weight of `t` without atom `i`
      have hW := worklistWeight_le fun c hc => (hchild c hc).2
      have hn : res.1.reverse.length ≤ b t.pos[i].pred := by
        rw [List.length_reverse, ← hres]
        exact (length_inlineAll_le cv _).trans (hlook _ hadm hne)
      have hsplit : weight (st.inliningAllowed ctx) b (t.pos.map Atom.pred) = _ :=
        weight_eraseIdx _ i (by simpa using hi)
      simp only [List.getElem_map, hadm, ite_true] at hsplit
      rw [worklistWeight_append]
      simp only [worklistWeight, hsplit]
      have := Nat.mul_le_mul_right
        (weight (st.inliningAllowed ctx) b ((t.pos.map Atom.pred).eraseIdx i)) hn
      omega

/-- A call of `plan_inlining` on a rule of `h` with a tail atom over the admissible `h` adds
nothing while the target has no rule of `h`: every rule of the worklist keeps an atom over
`h`, so it is never added, and resolving at that atom finds no rule to inline. -/
theorem transformRuleLoop_stuck {h : Pred} (hh : st.inliningAllowed ctx h = true) :
    ∀ (n : Nat) (todo : List Rule) (tgt : RuleSet) (modified : Bool) (cv : Converters)
      {out : RuleSet × Bool × Converters}, tgt.predicateRules h = [] →
      (∀ t ∈ todo, ∃ a ∈ t.pos, a.pred = h) →
      transformRuleLoop ctx st true n todo tgt modified cv = .ok out → out.1 = tgt
  | 0, _, _, _, _, _, _, _, hrun => by cases hrun
  | _ + 1, [], _, _, _, _, _, _, hrun => by cases hrun; rfl
  | n + 1, t :: todo, tgt, modified, cv, out, hnil, htodo, hrun => by
    have htodo' := fun t' ht' => htodo t' (List.mem_cons_of_mem _ ht')
    obtain ⟨x, hx, hxh⟩ := htodo t (List.mem_cons_self _ _)
    rcases @transformRuleLoop_cons_cases ctx st true t with
      ⟨-, e⟩ | ⟨-, hclean, -⟩ | ⟨-, i, hi, -, e⟩
    · rw [e] at hrun
      exact transformRuleLoop_stuck hh n todo tgt modified cv hnil htodo' hrun
    · exact absurd (hclean x hx) (by rw [hxh, hh]; decide)
    rw [e] at hrun
    by_cases ha : t.pos[i].pred = h
    · -- no rule of `h` to inline: the rule is dropped
      simp only [ite_true, ha, hnil] at hrun
      exact transformRuleLoop_stuck hh n todo tgt true cv hnil htodo' hrun
    · -- every resolvent keeps the atom over `h`
      refine transformRuleLoop_stuck hh n _ tgt true _ hnil (fun c hc => ?_) hrun
      rcases List.mem_append.mp hc with hc | hc
      · obtain ⟨src, -, _, _, htry⟩ := mem_inlineAll (List.mem_reverse.mp hc)
        obtain ⟨j, hj, rfl⟩ := List.mem_iff_getElem.mp hx
        have hmem : h ∈ (t.pos.map Atom.pred).eraseIdx i :=
          List.mem_eraseIdx_iff_getElem.mpr ⟨j, by simpa using hj, fun e => ha (by subst e; exact hxh),
            by simpa using hxh⟩
        simpa using tryToInlineRule_pos_subset htry (List.mem_append_left _ hmem)
      · exact htodo' c hc

end Loop

section Fill
variable {ctx : Context} {st₀ : Inliner} {cand : RuleSet} (fuel : Nat)

/-- What filling `m_inlined_rules` keeps, from the planned state `st₀`: no rule has an
admissible positive tail atom, and an admissible `q` has at most `max 1 m_head_pred_ctr[q]`
rules. -/
structure FillBound (ctx : Context) (st₀ : Inliner) (inl : RuleSet) : Prop where
  clean : ∀ s ∈ inl, PosClean (st₀.inliningAllowed ctx) s
  bound : ∀ q, st₀.inliningAllowed ctx q = true →
    (inl.predicateRules q).length ≤ max 1 (st₀.headPredCtr q)

/-- Filling `m_inlined_rules` and the converters leaves admissibility as planned. -/
@[simp] lemma inliningAllowed_fill (inl : RuleSet) (cv : Converters) :
    Inliner.inliningAllowed ctx { st₀ with inlinedRules := inl, cv := cv } =
      st₀.inliningAllowed ctx := rfl

@[simp] lemma multiHeadAtoms_fill (inl : RuleSet) (cv : Converters) :
    Inliner.multiHeadAtoms ctx { st₀ with inlinedRules := inl, cv := cv } =
      st₀.multiHeadAtoms ctx := rfl

lemma predicateRules_append_of_ne {inl added : RuleSet} {p q : Pred}
    (hadd : ∀ c ∈ added, c.decl = p) (hq : q ≠ p) :
    (inl ++ added).predicateRules q = inl.predicateRules q := by
  simp only [RuleSet.predicateRules, List.filter_append, List.append_right_eq_self,
    List.filter_eq_nil_iff, decide_eq_true_eq]
  exact fun c hc e => hq (e ▸ hadd c hc)

/-- The calls of `plan_inlining` on rules of `p` without a tail atom over `p` add at most their
weights, in clean rules of `p`. -/
lemma fillRules_count {p : Pred} :
    ∀ (rs : List Rule) (inl : RuleSet) (cv : Converters) {st' : Inliner},
      (∀ r ∈ rs, r.decl = p ∧ ∀ a ∈ r.pos, st₀.inliningAllowed ctx a.pred = true → a.pred ≠ p) →
      (∀ s ∈ inl, PosClean (st₀.inliningAllowed ctx) s) →
      (∀ q, st₀.inliningAllowed ctx q = true → q ≠ p →
        (inl.predicateRules q).length ≤ max 1 (st₀.headPredCtr q)) →
      rs.foldlM (Inliner.fillRule ctx fuel) { st₀ with inlinedRules := inl, cv := cv } = .ok st' →
      ∃ added cv', st' = { st₀ with inlinedRules := inl ++ added, cv := cv' } ∧
        (∀ c ∈ added, c.decl = p ∧ PosClean (st₀.inliningAllowed ctx) c) ∧
        added.length ≤ worklistWeight (st₀.inliningAllowed ctx) (fun q => max 1 (st₀.headPredCtr q)) rs
  | [], inl, cv, _, _, _, _, h => by
    cases h
    exact ⟨[], cv, by simp, by simp, by simp [worklistWeight]⟩
  | r :: rs, inl, cv, st', hrs, hinl, hlook, h => by
    obtain ⟨st₁, h₁, h⟩ := except_bind_eq_ok h
    obtain ⟨tgt, _, cv₁, hrun, rfl⟩ := Inliner.fillRule_eq_ok h₁
    obtain ⟨added₁, hout, hadd₁, hlen₁⟩ :=
      @transformRuleLoop_count ctx { st₀ with inlinedRules := inl, cv := cv } true
      (fun q => max 1 (st₀.headPredCtr q)) (fun _ => Nat.le_max_left _ _) p fuel [r] inl false cv _
      (fun e => by cases e) (fun _ => hinl) (fun q hq hne => by simpa using hlook q hq hne)
      (by simpa using hrs r (List.mem_cons_self _ _)) hrun
    dsimp only at hout
    subst hout
    obtain ⟨added₂, cv₂, rfl, hadd₂, hlen₂⟩ := fillRules_count rs (inl ++ added₁) cv₁
      (fun r' hr' => hrs r' (List.mem_cons_of_mem _ hr'))
      (fun s hs => (List.mem_append.mp hs).elim (hinl s) fun hs => (hadd₁ s hs).2)
      (fun q hq hne => by
        rw [predicateRules_append_of_ne (fun c hc => (hadd₁ c hc).1) hne]
        exact hlook q hq hne) h
    refine ⟨added₁ ++ added₂, cv₂, by rw [List.append_assoc], fun c hc => ?_, ?_⟩
    · exact (List.mem_append.mp hc).elim (hadd₁ c) (hadd₂ c)
    · simp only [worklistWeight, inliningAllowed_fill] at hlen₁ ⊢
      rw [List.length_append]
      omega

/-- What the analyses of `plan_inlining` guarantee about the rules of the candidate set, in the
planned state `st₀` (`planCandidates_multipliers`). -/
structure Planned (ctx : Context) (st₀ : Inliner) (cand : RuleSet) : Prop where
  rules : ∀ p, st₀.inliningAllowed ctx p = true → ∀ r ∈ cand.predicateRules p,
    ((∀ a ∈ r.pos, a.pred ≠ p) → (st₀.multiHeadAtoms ctx r).length ≤ 1 ∧
      ∀ a ∈ st₀.multiHeadAtoms ctx r, st₀.headPredCtr a.pred ≤ st₀.headPredCtr p) ∧
    ((∃ a ∈ r.pos, a.pred = p) ∨ st₀.multiHeadAtoms ctx r ≠ [] →
      (cand.predicateRules p).length ≤ 1)
  count : ∀ p, st₀.inliningAllowed ctx p = true → (cand.predicateRules p).length ≤ st₀.headPredCtr p

/-- The weight of a rule is the product of the counts of its multipliers. -/
lemma weight_eq_multiHeadAtoms (st : Inliner) (r : Rule) :
    weight (st.inliningAllowed ctx) (fun q => max 1 (st.headPredCtr q)) (r.pos.map Atom.pred) =
      ((st.multiHeadAtoms ctx r).map fun a => st.headPredCtr a.pred).foldr (· * ·) 1 :=
  weight_max_eq _ r.pos

/-- Filling the stratum of `p` gives `p` at most `max 1 m_head_pred_ctr[p]` rules and leaves the
other predicates' rules alone. -/
lemma fillStratum_count (hP : Planned ctx st₀ cand) {p : Pred} {rest : List Pred} {inl : RuleSet}
    {cv : Converters} {st' : Inliner} (hb : FillBound ctx st₀ inl) (hp : inl.predicateRules p = [])
    (h : Inliner.fillStratum ctx fuel cand { st₀ with inlinedRules := inl, cv := cv } (p :: rest) =
      .ok st') :
    ∃ inl' cv', st' = { st₀ with inlinedRules := inl', cv := cv' } ∧ FillBound ctx st₀ inl' ∧
      ∀ q, q ≠ p → inl'.predicateRules q = inl.predicateRules q := by
  have hdecl : ∀ r ∈ cand.predicateRules p, r.decl = p := fun r hr =>
    of_decide_eq_true (List.mem_filter.mp hr).2
  -- without a rule of `p` with an admissible tail atom over `p`, the weights bound what is added
  have hgen : (∀ r ∈ cand.predicateRules p, ∀ a ∈ r.pos,
      st₀.inliningAllowed ctx a.pred = true → a.pred ≠ p) →
      (st₀.inliningAllowed ctx p = true → worklistWeight (st₀.inliningAllowed ctx)
        (fun q => max 1 (st₀.headPredCtr q)) (cand.predicateRules p) ≤ max 1 (st₀.headPredCtr p)) →
      ∃ inl' cv', st' = { st₀ with inlinedRules := inl', cv := cv' } ∧ FillBound ctx st₀ inl' ∧
        ∀ q, q ≠ p → inl'.predicateRules q = inl.predicateRules q := by
    intro hno hW
    obtain ⟨added, cv', rfl, hadd, hlen⟩ := fillRules_count fuel _ inl cv
      (fun r hr => ⟨hdecl r hr, hno r hr⟩) hb.clean (fun q hq _ => hb.bound q hq) h
    refine ⟨inl ++ added, cv', rfl, ⟨fun s hs => ?_, fun q hq => ?_⟩,
      fun q hq => predicateRules_append_of_ne (fun c hc => (hadd c hc).1) hq⟩
    · exact (List.mem_append.mp hs).elim (hb.clean s) fun hs => (hadd s hs).2
    · by_cases hqp : q = p
      · subst hqp
        simp only [RuleSet.predicateRules, List.filter_append, List.length_append] at hp ⊢
        rw [hp, List.length_nil, Nat.zero_add]
        exact ((List.filter_sublist _).length_le.trans hlen).trans (hW hq)
      · rw [predicateRules_append_of_ne (fun c hc => (hadd c hc).1) hqp]
        exact hb.bound q hq
  by_cases hpa : st₀.inliningAllowed ctx p = true
  · by_cases hself : ∃ r ∈ cand.predicateRules p, ∃ a ∈ r.pos, a.pred = p
    · -- a rule of `p` over `p` itself is the only rule of `p`, and its call adds nothing
      obtain ⟨r, hr, a, ha, hap⟩ := hself
      have hR : cand.predicateRules p = [r] :=
        eq_singleton_of_length_le_one ((hP.rules p hpa r hr).2 (.inl ⟨a, ha, hap⟩)) hr
      change (cand.predicateRules p).foldlM _ _ = _ at h
      rw [hR] at h
      obtain ⟨st₁, h₁, h⟩ := except_bind_eq_ok h
      cases h
      obtain ⟨tgt, _, cv₁, hrun, rfl⟩ := Inliner.fillRule_eq_ok h₁
      have hsame := @transformRuleLoop_stuck ctx { st₀ with inlinedRules := inl, cv := cv } p hpa
        fuel [r] inl false cv _ hp (by simpa using ⟨a, ha, hap⟩) hrun
      dsimp only at hsame
      subst hsame
      exact ⟨tgt, cv₁, rfl, hb, fun _ _ => rfl⟩
    · push_neg at hself
      refine hgen (fun r hr a ha _ => hself r hr a ha) fun _ => ?_
      by_cases hl : (cand.predicateRules p).length ≤ 1
      · -- one rule: its weight is the count of its multiplier, which `p`'s count covers
        match hx : cand.predicateRules p, hl with
        | [], _ => exact Nat.zero_le _
        | [r], _ =>
          have hr : r ∈ cand.predicateRules p := hx ▸ List.mem_singleton_self r
          obtain ⟨h1, h2⟩ := (hP.rules p hpa r hr).1 (hself r hr)
          simp only [worklistWeight, Nat.add_zero]
          rw [weight_eq_multiHeadAtoms]
          exact foldr_mul_le_of_length_le_one (by simpa using h1) (by simpa using h2)
      · -- several rules: none has a multiplier, and `p`'s count covers their number
        have hW : ∀ r ∈ cand.predicateRules p, weight (st₀.inliningAllowed ctx)
            (fun q => max 1 (st₀.headPredCtr q)) (r.pos.map Atom.pred) ≤ 1 := fun r hr => by
          have hm : st₀.multiHeadAtoms ctx r = [] := by
            by_contra hne
            exact hl ((hP.rules p hpa r hr).2 (.inr hne))
          rw [weight_eq_multiHeadAtoms, hm]
          exact le_rfl
        calc _ ≤ (cand.predicateRules p).length * 1 := worklistWeight_le hW
          _ ≤ st₀.headPredCtr p := by simpa using hP.count p hpa
          _ ≤ max 1 (st₀.headPredCtr p) := Nat.le_max_right _ _
  · exact hgen (fun r _ a _ ha he => hpa (he ▸ ha)) fun h => absurd h hpa

/-- The filling loop of `plan_inlining` keeps `FillBound` over the strata of the candidate set:
each stratum fills its own predicate once. -/
lemma fill_count (hP : Planned ctx st₀ cand) :
    ∀ (L : List (List Pred)) (inl : RuleSet) (cv : Converters) {st' : Inliner},
      (∀ g ∈ L, g ∈ cand.strats) → L.Nodup → FillBound ctx st₀ inl →
      (∀ g ∈ L, ∀ q ∈ g, inl.predicateRules q = []) →
      L.foldlM (Inliner.fillStratum ctx fuel cand) { st₀ with inlinedRules := inl, cv := cv } =
        .ok st' →
      FillBound ctx st₀ st'.inlinedRules
  | [], _, _, _, _, _, hb, _, h => by cases h; exact hb
  | g :: L, inl, cv, st', hL, hnd, hb, hempty, h => by
    obtain ⟨st₁, h₁, h⟩ := except_bind_eq_ok h
    have hL' := fun g' hg' => hL g' (List.mem_cons_of_mem _ hg')
    have hempty' := fun g' hg' => hempty g' (List.mem_cons_of_mem _ hg')
    obtain ⟨hgL, hnd'⟩ := List.nodup_cons.mp hnd
    cases g with
    | nil =>
      cases h₁
      exact fill_count hP L inl cv hL' hnd' hb hempty' h
    | cons p rest =>
      obtain ⟨inl', cv', rfl, hb', hsame⟩ := fillStratum_count fuel hP hb
        (hempty _ (List.mem_cons_self _ _) p (List.mem_cons_self _ _)) h₁
      refine fill_count hP L inl' cv' hL' hnd' hb' (fun g' hg' q hq => ?_) h
      have hqp : q ≠ p := by
        rintro rfl
        have e₁ := RuleSet.eq_stratumOf (hL' g' hg') hq
        have e₂ := RuleSet.eq_stratumOf (hL _ (List.mem_cons_self _ _)) (List.mem_cons_self q rest)
        rw [e₁, ← e₂] at hg'
        exact hgL hg'
      rw [hsame q hqp]
      exact hempty' g' hg' q hq

end Fill

section Transform
variable {ctx : Context} {st : Inliner}

/-- A rule with at most one multiplier weighs at most four. -/
lemma weight_le_four {r : Rule} (hm : (st.multiHeadAtoms ctx r).length ≤ 1) :
    weight (st.inliningAllowed ctx) (fun q => max 1 (st.headPredCtr q)) (r.pos.map Atom.pred) ≤ 4 := by
  rw [weight_eq_multiHeadAtoms]
  refine (foldr_mul_le_of_length_le_one (m := 4) (by simpa using hm) fun x hx => ?_).trans (by simp)
  obtain ⟨a, ha, rfl⟩ := List.mem_map.mp hx
  have hm' := (List.mem_filter.mp ha).2
  simp only [Bool.and_eq_true] at hm'
  exact Inliner.headPredCtr_le_four hm'.1

/-- With a bounded `m_inlined_rules` and at most one multiplier per rule with a non-admissible
head, `transform_rules` adds at most four rules per input rule. -/
lemma transformRules_count {fuel : Nat}
    (hinl : ∀ s ∈ st.inlinedRules, PosClean (st.inliningAllowed ctx) s)
    (hbound : ∀ q, st.inliningAllowed ctx q = true →
      (st.inlinedRules.predicateRules q).length ≤ max 1 (st.headPredCtr q)) :
    ∀ (rs : List Rule) (tgt : RuleSet) (done : Bool) (cv : Converters)
      {out : RuleSet × Bool × Converters},
      (∀ r ∈ rs, st.inliningAllowed ctx r.decl = false → (st.multiHeadAtoms ctx r).length ≤ 1) →
      transformRules ctx fuel st rs tgt done cv = .ok out → out.1.length ≤ tgt.length + 4 * rs.length
  | [], _, _, _, _, _, h => by cases h; simp
  | r :: rs, tgt, done, cv, out, hm, h => by
    have hm' := fun r' hr' => hm r' (List.mem_cons_of_mem _ hr')
    rcases transformRules_cons_eq_ok h with ⟨-, h⟩ | ⟨hd', tgt', _, cv', hrun, h⟩
    · have := transformRules_count hinl hbound rs tgt done cv hm' h
      simp only [List.length_cons]
      omega
    obtain ⟨added, hout, -, hlen⟩ := @transformRuleLoop_count ctx st false
      (fun q => max 1 (st.headPredCtr q)) (fun _ => Nat.le_max_left _ _) r.decl fuel [r] tgt false
      cv _ (fun _ => hinl) (fun e => by cases e) (fun q hq _ => hbound q hq)
      (by simpa using fun a _ ha he => by simp [he, hd'] at ha) hrun
    have h4 := weight_le_four (hm r (List.mem_cons_self _ _) hd')
    have := transformRules_count hinl hbound rs tgt' _ cv' hm' h
    dsimp only at hout
    simp only [worklistWeight, Nat.add_zero] at hlen
    simp only [hout, List.length_append, List.length_cons] at this ⊢
    omega

/-- The multiplier bound of bulk inlining. From an empty `m_inlined_rules`, once the analyses
of `plan_inlining` have finished, `plan_inlining` and `transform_rules` finish (for all large
enough fuel). In the state they leave, an admissible predicate with a count above one has a
count of at most four, and a rule of the input with a non-admissible head has at most one
positive tail atom over an admissible predicate with a count above one. Every call of
`transform_rule` on such a rule finishes, and adds at most that predicate's count of rules, or
at most one rule when there is no such atom. So `transform_rules` builds at most four rules
per input rule, however the multi-rule predicates are chained through inlined ones. -/
theorem transformRules_multiplier_bound {st₀ : Inliner} {S cand : RuleSet} {fuel₀ : Nat}
    (h0 : st₀.inlinedRules = []) (hc : st₀.planCandidates ctx fuel₀ S = .ok (st, cand)) :
    ∃ K st' out done cv,
      (∀ fuel, K ≤ fuel → st₀.planInlining ctx fuel S = .ok st' ∧
        transformRules ctx fuel st' S [] false st'.cv = .ok (out, done, cv)) ∧
      (∀ q, st'.inliningAllowed ctx q = true → 1 < st'.headPredCtr q → st'.headPredCtr q ≤ 4) ∧
      (∀ r ∈ S, st'.inliningAllowed ctx r.decl = false →
        (st'.multiHeadAtoms ctx r).length ≤ 1 ∧
        ∀ tgt modified cv, Finishes (fun F => transformRuleLoop ctx st' false F [r] tgt modified cv)
          fun res => ∃ added, res.1 = tgt ++ added ∧
            (∀ a ∈ st'.multiHeadAtoms ctx r, added.length ≤ st'.headPredCtr a.pred) ∧
            (st'.multiHeadAtoms ctx r = [] → added.length ≤ 1)) ∧
      out.length ≤ 4 * S.length := by
  have hframe := Inliner.frame_planCandidates hc
  have hneg := negClean_of_planCandidates hc
  have hempty : st.inlinedRules = [] := by
    rw [hframe.inlined, Inliner.inlinedRules_countPredOccurrences, h0]
  obtain ⟨K, inl, cv, out, done, cv', hinl, -, hrun⟩ := bulk_finishes h0 hc
  -- what the planner guarantees, and the bound the filling loop keeps
  obtain ⟨hA, hB⟩ := Inliner.planCandidates_multipliers hc
  have hP : Planned ctx st cand := by
    refine ⟨fun p hp r hr => ?_, fun p hp => ?_⟩ <;>
      rw [Inliner.predicateRules_planCandidates hc hp] at *
    · exact hB p hp r hr
    · exact (Inliner.length_predicateRules_le_countPredOccurrences st₀ S p).trans (hframe.head p)
  have hfill : FillBound ctx st inl := fill_count K hP cand.strats st.inlinedRules st.cv
    (fun _ hg => hg) (RuleSet.strats_nodup (X := cand))
    ⟨by simp [hempty], by simp [hempty, RuleSet.predicateRules]⟩
    (fun _ _ _ _ => by simp [hempty, RuleSet.predicateRules]) (hrun K le_rfl).1
  refine ⟨K, _, out, done, cv', fun F hF => (hrun F hF).2,
    fun q hq _ => Inliner.headPredCtr_le_four hq,
    fun r hr hd => ⟨hA r hr hd, fun tgt modified cv₀ => ?_⟩, ?_⟩
  · -- one call of `transform_rule` finishes, and adds at most the weight of `r`
    have hd' : st.inliningAllowed ctx r.decl = false := hd
    obtain ⟨K, x, -, hrunr⟩ := @transformRuleLoop_finishes ctx
      { st with inlinedRules := inl, cv := cv } false (fun _ => hinl) r (hneg r hr) tgt modified cv₀
      (by simp)
    obtain ⟨added, hx, -, hlen⟩ := @transformRuleLoop_count ctx
      { st with inlinedRules := inl, cv := cv } false (fun q => max 1 (st.headPredCtr q))
      (fun _ => Nat.le_max_left _ _) r.decl K [r] tgt modified cv₀ _ (fun _ s hs => (hinl s hs).1)
      (fun e => by cases e) (fun q hq _ => hfill.bound q hq)
      (by simpa using fun a _ ha he => by simp [he, hd'] at ha) (hrunr K le_rfl)
    simp only [worklistWeight, Nat.add_zero, inliningAllowed_fill] at hlen
    rw [weight_eq_multiHeadAtoms] at hlen
    refine ⟨K, x, ⟨added, hx, fun a ha => ?_, fun hnil => ?_⟩, hrunr⟩
    · -- the only multiplier: its count bounds the weight
      simp only [multiHeadAtoms_fill] at ha
      have hM := hA r hr hd
      rcases hml : st.multiHeadAtoms ctx r with _ | ⟨x, _ | ⟨y, l⟩⟩ <;> rw [hml] at ha hM hlen
      · cases ha
      · rw [List.mem_singleton.mp ha]
        simpa using hlen
      · simp at hM
    · simp only [multiHeadAtoms_fill] at hnil
      simpa [hnil] using hlen
  · simpa using @transformRules_count ctx { st with inlinedRules := inl, cv := cv } K
      (fun s hs => (hinl s hs).1) hfill.bound S [] false cv _ hA (hrun K le_rfl).2.2

/-- `Out(x) :- P(x), Q(x).`, `P(x) :- A(x).`, `P(x) :- B(x).`, `Q(x) :- C(x).`,
`Q(x) :- D(x).` -/
def multiplierRules : RuleSet :=
  [⟨⟨⟨0, 1⟩, [.var 0]⟩, [⟨⟨1, 1⟩, [.var 0]⟩, ⟨⟨2, 1⟩, [.var 0]⟩], [], []⟩,
   ⟨⟨⟨1, 1⟩, [.var 0]⟩, [⟨⟨3, 1⟩, [.var 0]⟩], [], []⟩,
   ⟨⟨⟨1, 1⟩, [.var 0]⟩, [⟨⟨4, 1⟩, [.var 0]⟩], [], []⟩,
   ⟨⟨⟨2, 1⟩, [.var 0]⟩, [⟨⟨5, 1⟩, [.var 0]⟩], [], []⟩,
   ⟨⟨⟨2, 1⟩, [.var 0]⟩, [⟨⟨6, 1⟩, [.var 0]⟩], [], []⟩]

/-- `Out` is the output predicate, and `A`, `B`, `C`, `D` have facts. -/
def multiplierContext : Context :=
  Context.reference [⟨0, 1⟩] [⟨3, 1⟩, ⟨4, 1⟩, ⟨5, 1⟩, ⟨6, 1⟩] ⟨[]⟩

/-- Both `P` and `Q` are multi-rule candidates for the rule of `Out`; the second loop of the
guard forbids `Q`. -/
theorem transformRules_multiplier_bound_twoMultipliers :
    ∃ K st' out done cv,
      (∀ fuel, K ≤ fuel → Inliner.init.planInlining multiplierContext fuel multiplierRules = .ok st' ∧
        transformRules multiplierContext fuel st' multiplierRules [] false st'.cv =
          .ok (out, done, cv)) ∧
      (∀ q, st'.inliningAllowed multiplierContext q = true → 1 < st'.headPredCtr q →
        st'.headPredCtr q ≤ 4) ∧
      (∀ r ∈ multiplierRules, st'.inliningAllowed multiplierContext r.decl = false →
        (st'.multiHeadAtoms multiplierContext r).length ≤ 1 ∧
        ∀ tgt modified cv,
          Finishes (fun F => transformRuleLoop multiplierContext st' false F [r] tgt modified cv)
            fun res => ∃ added, res.1 = tgt ++ added ∧
              (∀ a ∈ st'.multiHeadAtoms multiplierContext r, added.length ≤ st'.headPredCtr a.pred) ∧
              (st'.multiHeadAtoms multiplierContext r = [] → added.length ≤ 1)) ∧
      out.length ≤ 4 * multiplierRules.length :=
  @transformRules_multiplier_bound multiplierContext _ Inliner.init multiplierRules _ 2 rfl rfl

example : (match Inliner.init.planCandidates multiplierContext 2 multiplierRules with
    | .ok (st, _) => (st.inliningAllowed multiplierContext ⟨1, 1⟩,
        st.inliningAllowed multiplierContext ⟨2, 1⟩)
    | .error _ => (false, false)) = (true, false) := by decide

end Transform

end RuleInliner
