import RuleInliner.Planner.Frame
import RuleInliner.Reference

/-!
# Termination and elimination of bulk inlining

`transform_rule` has no bound on its worklist. It terminates because every rule of the lookup
set is *clean*: it has no positive tail atom over an admissible predicate. Resolving a rule
at an admissible atom with a clean source removes that atom and adds no admissible one, so
every resolvent has fewer admissible atoms than its parent (`admCount_tryToInlineRule`).
`transformRuleLoop_consume` turns this into a fuel budget by strong induction on the number
of admissible atoms: processing a worklist consumes a bounded amount of fuel and adds only
clean rules, whose heads are heads of the worklist. Negated atoms are never inlined; a
predicate with a negated occurrence is not admissible, so no rule the pass builds from the
input has an admissible negated atom either.

`plan_inlining` fills `m_inlined_rules` with the very calls it looks up in, so the invariant
is kept by the filling loop (`fill_finishes`), and `transform_rules` then finishes with rules
that mention no admissible predicate at all (`transformRules_finishes`).
-/

namespace RuleInliner

/-- Erasing a position where the predicate holds lowers the count by one. -/
lemma countP_eraseIdx {α : Type} (p : α → Bool) :
    ∀ (l : List α) (i : Nat) (hi : i < l.length), p l[i] = true →
      (l.eraseIdx i).countP p + 1 = l.countP p
  | a :: l, 0, _, h => by simp_all [List.countP_cons]
  | a :: l, i + 1, hi, h => by
    have := countP_eraseIdx p l i (by simpa using hi) h
    simp only [List.eraseIdx_cons_succ, List.countP_cons]
    omega

/-- Every resolvent `inlineAll` returns comes from one of the sources. -/
lemma mem_inlineAll {ctx : Context} {r res : Rule} {i : Nat} :
    ∀ {cv : Converters} {srcs : List Rule}, res ∈ (inlineAll ctx r i cv srcs).1 →
      ∃ src ∈ srcs, ∃ cv₁ cv₂, tryToInlineRule ctx cv₁ r src i = (some res, cv₂)
  | _, [], h => by simp [inlineAll] at h
  | cv, src :: srcs, h => by
    simp only [inlineAll, List.mem_append] at h
    rcases h with h | h
    · rcases hres : tryToInlineRule ctx cv r src i with ⟨_ | res', cv'⟩
      · simp [hres] at h
      · simp only [hres, Option.toList_some, List.mem_singleton] at h
        exact ⟨src, List.mem_cons_self _ _, cv, cv', h ▸ hres⟩
    · obtain ⟨s, hs, rest⟩ := mem_inlineAll h
      exact ⟨s, List.mem_cons_of_mem _ hs, rest⟩

@[simp] lemma inlineAll_mc (ctx : Context) (r : Rule) (i : Nat) :
    ∀ (cv : Converters) (srcs : List Rule), (inlineAll ctx r i cv srcs).2.mc = cv.mc
  | _, [] => rfl
  | cv, src :: srcs => by simp [inlineAll, inlineAll_mc]

section Elimination
variable (adm : Pred → Bool)

/-- The number of positive tail atoms of `r` over admissible predicates. -/
def admCount (r : Rule) : Nat := (r.pos.map Atom.pred).countP adm

/-- `r` has no positive tail atom over an admissible predicate. -/
def PosClean (r : Rule) : Prop := ∀ a ∈ r.pos, adm a.pred = false

/-- `r` has no negated tail atom over an admissible predicate. -/
def NegClean (r : Rule) : Prop := ∀ a ∈ r.neg, adm a.pred = false

/-- `r` has no tail atom over an admissible predicate. -/
def Settled (r : Rule) : Prop := PosClean adm r ∧ NegClean adm r

variable {adm} {ctx : Context} {cv cv' : Converters} {r src res : Rule} {i : Nat}

/-- Resolving at an admissible atom with a clean source removes an admissible atom. -/
lemma admCount_tryToInlineRule (h : tryToInlineRule ctx cv r src i = (some res, cv'))
    (hadm : ∀ hi : i < r.pos.length, adm r.pos[i].pred = true) (hsrc : PosClean adm src) :
    admCount adm res + 1 ≤ admCount adm r := by
  obtain ⟨hi, -, -, hpos, -⟩ := tryToInlineRule_shape h
  have hsub := hpos.countP_le adm
  have hsrc0 : (src.pos.map Atom.pred).countP adm = 0 :=
    List.countP_eq_zero.mpr fun p hp => by
      obtain ⟨a, ha, rfl⟩ := List.mem_map.mp hp
      simp [hsrc a ha]
  have herase := countP_eraseIdx adm (r.pos.map Atom.pred) i (by simpa using hi)
    (by simpa using hadm hi)
  rw [List.countP_append, hsrc0] at hsub
  unfold admCount
  omega

/-- A resolvent of two rules without admissible negated atoms has none either. -/
lemma negClean_tryToInlineRule (h : tryToInlineRule ctx cv r src i = (some res, cv'))
    (hr : NegClean adm r) (hsrc : NegClean adm src) : NegClean adm res := by
  obtain ⟨-, -, -, -, hneg⟩ := tryToInlineRule_shape h
  intro a ha
  have := hneg.subset (List.mem_map_of_mem Atom.pred ha)
  simp only [List.mem_append, List.mem_map] at this
  rcases this with ⟨b, hb, hab⟩ | ⟨b, hb, hab⟩
  · exact hab ▸ hr b hb
  · exact hab ▸ hsrc b hb

end Elimination

section Loop
variable {ctx : Context} {st : Inliner} {self : Bool}

/-- The worklist of `transform_rule` consumes a bounded amount of fuel. Processing the rules
`L` in front of `rest`, when the lookup set is settled, leaves `rest` to do and adds settled
rules whose heads are heads of `L`, without touching `m_mc`. -/
theorem transformRuleLoop_consume
    (hinl : self = false → ∀ s ∈ st.inlinedRules, Settled (st.inliningAllowed ctx) s) (m : Nat) :
    ∀ L : List Rule,
      (∀ r ∈ L, admCount (st.inliningAllowed ctx) r ≤ m ∧ NegClean (st.inliningAllowed ctx) r) →
    ∀ rest tgt modified cv, (self = true → ∀ s ∈ tgt, Settled (st.inliningAllowed ctx) s) →
    ∃ k added modified' cv',
      (∀ c ∈ added, Settled (st.inliningAllowed ctx) c ∧ ∃ r ∈ L, c.decl = r.decl) ∧
      cv'.mc = cv.mc ∧
      ∀ n, transformRuleLoop ctx st self (n + k) (L ++ rest) tgt modified cv =
        transformRuleLoop ctx st self n rest (tgt ++ added) modified' cv' := by
  induction m using Nat.strong_induction_on with
  | _ m ihm =>
  intro L
  induction L with
  | nil => exact fun _ rest tgt modified cv _ => ⟨0, [], modified, cv, by simp, rfl, fun n => by simp⟩
  | cons r L ih =>
    intro hL rest tgt modified cv htgt
    have hL' : ∀ c ∈ L, _ := fun c hc => hL c (List.mem_cons_of_mem _ hc)
    obtain ⟨hrm, hrneg⟩ := hL r (List.mem_cons_self _ _)
    rcases @transformRuleLoop_cons_cases ctx st self r with
      ⟨-, e⟩ | ⟨-, hclean, e⟩ | ⟨-, i, hi, hadm, e⟩
    · -- the rule is dropped
      obtain ⟨k, added, mod', cv', hadd, hmc, hrun⟩ := ih hL' rest tgt modified cv htgt
      refine ⟨k + 1, added, mod', cv', fun c hc => ?_, hmc, fun n => ?_⟩
      · obtain ⟨hs, r', hr', hd⟩ := hadd c hc
        exact ⟨hs, r', List.mem_cons_of_mem _ hr', hd⟩
      · rw [← Nat.add_assoc, List.cons_append, e, hrun]
    · -- nothing to inline: the rule goes to the target
      obtain ⟨k, added, mod', cv', hadd, hmc, hrun⟩ :=
        ih hL' rest (tgt ++ [r]) modified cv fun hs c hc =>
          (List.mem_append.mp hc).elim (htgt hs c) fun hc =>
            List.mem_singleton.mp hc ▸ ⟨hclean, hrneg⟩
      refine ⟨k + 1, r :: added, mod', cv', ?_, hmc, fun n => ?_⟩
      · intro c hc
        rcases List.mem_cons.mp hc with rfl | hc
        · exact ⟨⟨hclean, hrneg⟩, c, List.mem_cons_self _ _, rfl⟩
        · obtain ⟨hs, r', hr', hd⟩ := hadd c hc
          exact ⟨hs, r', List.mem_cons_of_mem _ hr', hd⟩
      · rw [← Nat.add_assoc, List.cons_append, e, hrun, List.append_assoc, List.singleton_append]
    · -- resolve with every rule of the lookup set defining the admissible atom
      have hm : 0 < m := lt_of_lt_of_le (List.countP_pos_iff.mpr
        ⟨r.pos[i].pred, List.mem_map_of_mem _ (List.getElem_mem hi), hadm⟩) hrm
      have hsrcs : ∀ s ∈ (if self then tgt else st.inlinedRules).predicateRules r.pos[i].pred,
          Settled (st.inliningAllowed ctx) s := by
        intro s hs
        replace hs := (List.mem_filter.mp hs).1
        cases self
        · exact hinl rfl s hs
        · exact htgt rfl s hs
      obtain ⟨res, hres⟩ : ∃ res, inlineAll ctx r i cv
          ((if self then tgt else st.inlinedRules).predicateRules r.pos[i].pred) = res := ⟨_, rfl⟩
      have hchild : ∀ c ∈ res.1.reverse, admCount (st.inliningAllowed ctx) c ≤ m - 1 ∧
          NegClean (st.inliningAllowed ctx) c ∧ c.decl = r.decl := by
        intro c hc
        obtain ⟨s, hs, _, _, htry⟩ := mem_inlineAll (hres ▸ List.mem_reverse.mp hc)
        have := admCount_tryToInlineRule htry (fun _ => hadm) (hsrcs s hs).1
        obtain ⟨-, -, hd, -, -⟩ := tryToInlineRule_shape htry
        exact ⟨by omega, negClean_tryToInlineRule htry hrneg (hsrcs s hs).2, hd⟩
      obtain ⟨k₁, added₁, mod₁, cv₁, hadd₁, hmc₁, hrun₁⟩ :=
        ihm (m - 1) (by omega) _ (fun c hc => ⟨(hchild c hc).1, (hchild c hc).2.1⟩)
          (L ++ rest) tgt true res.2 htgt
      obtain ⟨k₂, added₂, mod₂, cv₂, hadd₂, hmc₂, hrun₂⟩ :=
        ih hL' rest (tgt ++ added₁) mod₁ cv₁ fun hs c hc =>
          (List.mem_append.mp hc).elim (htgt hs c) fun hc => (hadd₁ c hc).1
      refine ⟨k₂ + k₁ + 1, added₁ ++ added₂, mod₂, cv₂, fun c hc => ?_,
        by rw [hmc₂, hmc₁, ← hres, inlineAll_mc], fun n => ?_⟩
      · rcases List.mem_append.mp hc with hc | hc
        · obtain ⟨hs, c', hc', hd⟩ := hadd₁ c hc
          exact ⟨hs, r, List.mem_cons_self _ _, hd.trans (hchild c' hc').2.2⟩
        · obtain ⟨hs, r', hr', hd⟩ := hadd₂ c hc
          exact ⟨hs, r', List.mem_cons_of_mem _ hr', hd⟩
      · rw [show n + (k₂ + k₁ + 1) = n + k₂ + k₁ + 1 by omega, List.cons_append, e, hres, hrun₁,
          hrun₂, List.append_assoc]

/-- One call of `transform_rule` on a rule without admissible negated atoms finishes, adding
settled rules with the rule's head. -/
lemma transformRuleLoop_finishes
    (hinl : self = false → ∀ s ∈ st.inlinedRules, Settled (st.inliningAllowed ctx) s)
    {r : Rule} (hr : NegClean (st.inliningAllowed ctx) r) {tgt : RuleSet} {modified : Bool}
    {cv : Converters} (htgt : self = true → ∀ s ∈ tgt, Settled (st.inliningAllowed ctx) s) :
    Finishes (fun F => transformRuleLoop ctx st self F [r] tgt modified cv) fun out =>
      ∃ added, out.1 = tgt ++ added ∧
        (∀ c ∈ added, Settled (st.inliningAllowed ctx) c ∧ c.decl = r.decl) ∧ out.2.2.mc = cv.mc := by
  obtain ⟨k, added, mod', cv', hadd, hmc, hrun⟩ := transformRuleLoop_consume hinl
    (admCount (st.inliningAllowed ctx) r) [r] (by simpa using hr) [] tgt modified cv htgt
  refine ⟨k + 1, (tgt ++ added, mod', cv'), ⟨added, rfl, fun c hc => ?_, hmc⟩, fun F hF => ?_⟩
  · obtain ⟨hs, r', hr', hd⟩ := hadd c hc
    exact ⟨hs, List.mem_singleton.mp hr' ▸ hd⟩
  · obtain ⟨n, rfl⟩ : ∃ n, F = n + 1 + k := ⟨F - k - 1, by omega⟩
    have := hrun (n + 1)
    rw [List.append_nil] at this
    exact this.trans rfl

end Loop

section Fill
variable {ctx : Context} {st₀ : Inliner}

/-- The states of the filling loop: the planned state with a settled `m_inlined_rules` and
the model converter untouched. -/
def FillInv (ctx : Context) (st₀ st : Inliner) : Prop :=
  ∃ inl cv, st = { st₀ with inlinedRules := inl, cv := cv } ∧
    (∀ s ∈ inl, Settled (st₀.inliningAllowed ctx) s) ∧ cv.mc = st₀.cv.mc

lemma fillRule_finishes {st : Inliner} (hst : FillInv ctx st₀ st) {r : Rule}
    (hr : NegClean (st₀.inliningAllowed ctx) r) :
    Finishes (fun F => Inliner.fillRule ctx F st r) (FillInv ctx st₀) := by
  obtain ⟨inl, cv, rfl, hinl, hmc⟩ := hst
  obtain ⟨K, out, ⟨added, hout, hadd, hmc'⟩, hrun⟩ :=
    @transformRuleLoop_finishes ctx { st₀ with inlinedRules := inl, cv := cv } true (by simp) r hr
      inl false cv fun _ => hinl
  refine ⟨K, { st₀ with inlinedRules := out.1, cv := out.2.2 }, ⟨out.1, out.2.2, rfl, ?_, ?_⟩,
    fun F hF => ?_⟩
  · rw [hout]
    intro s hs
    rcases List.mem_append.mp hs with hs | hs
    · exact hinl s hs
    · exact (hadd s hs).1
  · rw [hmc', hmc]
  · simp only [Inliner.fillRule, hrun F hF]

lemma fillStratum_finishes {cand : RuleSet}
    (hcand : ∀ r ∈ cand, NegClean (st₀.inliningAllowed ctx) r) {st : Inliner}
    (hst : FillInv ctx st₀ st) (g : List Pred) :
    Finishes (fun F => Inliner.fillStratum ctx F cand st g) (FillInv ctx st₀) := by
  cases g with
  | nil => exact ⟨0, st, hst, fun _ _ => rfl⟩
  | cons p _ =>
    exact finishes_foldlM
      (fun _ (r : Rule) hb (hr : NegClean (st₀.inliningAllowed ctx) r) => fillRule_finishes hb hr)
      (cand.predicateRules p)
      (fun r hr => hcand r (List.mem_filter.mp hr).1) st hst

/-- The filling loop of `plan_inlining` finishes, keeping `m_inlined_rules` settled. -/
lemma fill_finishes {cand : RuleSet} (hcand : ∀ r ∈ cand, NegClean (st₀.inliningAllowed ctx) r)
    {st : Inliner} (hst : FillInv ctx st₀ st) :
    Finishes (fun F => Inliner.fill ctx F cand st) (FillInv ctx st₀) :=
  finishes_foldlM (fun _ g hb (_ : True) => fillStratum_finishes hcand hb g) cand.strats
    (fun _ _ => trivial) st hst

end Fill


section Transform
variable {ctx : Context} {st : Inliner}

/-- `transform_rules` finishes with rules that mention no admissible predicate. -/
lemma transformRules_finishes (hinl : ∀ s ∈ st.inlinedRules, Settled (st.inliningAllowed ctx) s) :
    ∀ rs : List Rule, (∀ r ∈ rs, NegClean (st.inliningAllowed ctx) r) → ∀ tgt done cv,
      (∀ c ∈ tgt, Settled (st.inliningAllowed ctx) c ∧ st.inliningAllowed ctx c.decl = false) →
      Finishes (fun F => transformRules ctx F st rs tgt done cv) fun out =>
        (∀ c ∈ out.1, Settled (st.inliningAllowed ctx) c ∧ st.inliningAllowed ctx c.decl = false) ∧
          out.2.2.mc = cv.mc
  | [], _, tgt, done, cv, htgt => ⟨0, (tgt, done, cv), ⟨htgt, rfl⟩, fun _ _ => rfl⟩
  | r :: rs, hrs, tgt, done, cv, htgt => by
    have hrs' := fun r' hr' => hrs r' (List.mem_cons_of_mem r hr')
    by_cases hd : st.inliningAllowed ctx r.decl = true
    · -- the rules of an admissible predicate are skipped
      obtain ⟨K, out, hout, hrun⟩ := transformRules_finishes hinl rs hrs' tgt done cv htgt
      refine ⟨K, out, hout, fun F hF => ?_⟩
      show transformRules ctx F st (r :: rs) tgt done cv = _
      rw [transformRules, if_pos hd]
      exact hrun F hF
    · obtain ⟨K₁, ⟨tgt', mod', cv'⟩, ⟨added, hout, hadd, hmc⟩, hrun₁⟩ :=
        @transformRuleLoop_finishes ctx st false (fun _ => hinl) r (hrs r (List.mem_cons_self _ _))
          tgt false cv (by simp)
      dsimp only at hout hmc
      have htgt' : ∀ c ∈ tgt', Settled (st.inliningAllowed ctx) c ∧
          st.inliningAllowed ctx c.decl = false := by
        rw [hout]
        intro c hc
        rcases List.mem_append.mp hc with hc | hc
        · exact htgt c hc
        · exact ⟨(hadd c hc).1, (hadd c hc).2 ▸ by simpa using hd⟩
      obtain ⟨K₂, out, ⟨hout₂, hmc₂⟩, hrun₂⟩ :=
        transformRules_finishes hinl rs hrs' tgt' (done || mod') cv' htgt'
      refine ⟨K₁ + K₂, out, ⟨hout₂, hmc₂.trans hmc⟩, fun F hF => ?_⟩
      show transformRules ctx F st (r :: rs) tgt done cv = _
      rw [transformRules, if_neg hd]
      simp only [hrun₁ F (by omega)]
      exact hrun₂ F (by omega)

/-- A predicate with a negated occurrence in the input is never admissible, so once the
analyses of `plan_inlining` have finished no input rule has an admissible negated atom. -/
lemma negClean_of_planCandidates {st₀ : Inliner} {S cand : RuleSet} {fuel₀ : Nat}
    (hc : st₀.planCandidates ctx fuel₀ S = .ok (st, cand)) :
    ∀ r ∈ S, NegClean (st.inliningAllowed ctx) r := fun _ hr _ ha =>
  Inliner.inliningAllowed_of_negOcc
    ((Inliner.frame_planCandidates hc).negOcc ▸ Inliner.mem_negOcc_countPredOccurrences hr ha)

/-- Bulk inlining finishes. From an empty `m_inlined_rules`, once the analyses of
`plan_inlining` have finished, for all large enough fuel its filling loop stores a settled
`m_inlined_rules`, and `transform_rules` then returns rules that mention no admissible
predicate. -/
lemma bulk_finishes {st₀ : Inliner} {S cand : RuleSet} {fuel₀ : Nat}
    (h0 : st₀.inlinedRules = []) (hc : st₀.planCandidates ctx fuel₀ S = .ok (st, cand)) :
    ∃ K inl cv out done cv', (∀ s ∈ inl, Settled (st.inliningAllowed ctx) s) ∧
      (∀ c ∈ out, Settled (st.inliningAllowed ctx) c ∧ st.inliningAllowed ctx c.decl = false) ∧
      ∀ fuel, K ≤ fuel →
        Inliner.fill ctx fuel cand st = .ok { st with inlinedRules := inl, cv := cv } ∧
        st₀.planInlining ctx fuel S = .ok { st with inlinedRules := inl, cv := cv } ∧
        transformRules ctx fuel { st with inlinedRules := inl, cv := cv } S [] false cv =
          .ok (out, done, cv') := by
  have hneg := negClean_of_planCandidates hc
  obtain ⟨K₁, _, ⟨inl, cv, rfl, hinl, -⟩, hrun₁⟩ :=
    fill_finishes (fun r hr => hneg r (Inliner.mem_of_planCandidates hc hr))
      ⟨st.inlinedRules, st.cv, rfl, by simp [(Inliner.frame_planCandidates hc).inlined, h0], rfl⟩
  obtain ⟨K₂, ⟨out, done, cv'⟩, ⟨hout, -⟩, hrun₂⟩ :=
    @transformRules_finishes ctx { st with inlinedRules := inl, cv := cv } hinl S hneg [] false cv
      (by simp)
  refine ⟨fuel₀ + K₁ + K₂, inl, cv, out, done, cv', hinl, hout,
    fun F hF => ⟨hrun₁ F (by omega), ?_, hrun₂ F (by omega)⟩⟩
  obtain ⟨k, rfl⟩ : ∃ k, F = fuel₀ + k := ⟨F - fuel₀, by omega⟩
  simp only [Inliner.planInlining, Inliner.planCandidates_add k hc]
  exact hrun₁ _ (by omega)

/-- Bulk inlining eliminates every admissible predicate. From an empty `m_inlined_rules`
(the `SASSERT` of `plan_inlining`), once the analyses of `plan_inlining` have finished,
every call of `transform_rule` that its filling loop and `transform_rules` make finishes
(so both do, for all large enough fuel). The rules in `m_inlined_rules` then have no
positive tail atom over an admissible predicate, and the rules `transform_rules` builds
mention no admissible predicate at all: not as head, not in a positive and not in a
negated tail atom. -/
theorem transformRules_eliminates_admissible {st₀ : Inliner} {S cand : RuleSet} {fuel₀ : Nat}
    (h0 : st₀.inlinedRules = []) (hc : st₀.planCandidates ctx fuel₀ S = .ok (st, cand)) :
    ∃ K st' out done cv,
      (∀ fuel, K ≤ fuel → st₀.planInlining ctx fuel S = .ok st' ∧
        transformRules ctx fuel st' S [] false st'.cv = .ok (out, done, cv)) ∧
      (∀ r ∈ st'.inlinedRules, ∀ a ∈ r.pos, st'.inliningAllowed ctx a.pred = false) ∧
      ∀ r ∈ out, st'.inliningAllowed ctx r.decl = false ∧
        (∀ a ∈ r.pos, st'.inliningAllowed ctx a.pred = false) ∧
        ∀ a ∈ r.neg, st'.inliningAllowed ctx a.pred = false := by
  obtain ⟨K, inl, cv, out, done, cv', hinl, hout, hrun⟩ := bulk_finishes h0 hc
  exact ⟨K, _, out, done, cv', fun F hF => (hrun F hF).2, fun r hr => (hinl r hr).1,
    fun r hr => ⟨(hout r hr).2, (hout r hr).1⟩⟩

/-- The chain `Out(x) :- P(x)`, `P(x) :- B(x)`, with `Out` the output and facts for `B`. -/
theorem transformRules_eliminates_chain :
    let ctx := Context.reference [⟨0, 1⟩] [⟨2, 1⟩] ⟨[]⟩
    let S : RuleSet := [⟨⟨⟨0, 1⟩, [.var 0]⟩, [⟨⟨1, 1⟩, [.var 0]⟩], [], []⟩,
      ⟨⟨⟨1, 1⟩, [.var 0]⟩, [⟨⟨2, 1⟩, [.var 0]⟩], [], []⟩]
    ∃ K st' out done cv,
      (∀ fuel, K ≤ fuel → Inliner.init.planInlining ctx fuel S = .ok st' ∧
        transformRules ctx fuel st' S [] false st'.cv = .ok (out, done, cv)) ∧
      (∀ r ∈ st'.inlinedRules, ∀ a ∈ r.pos, st'.inliningAllowed ctx a.pred = false) ∧
      ∀ r ∈ out, st'.inliningAllowed ctx r.decl = false ∧
        (∀ a ∈ r.pos, st'.inliningAllowed ctx a.pred = false) ∧
        ∀ a ∈ r.neg, st'.inliningAllowed ctx a.pred = false :=
  @transformRules_eliminates_admissible _ _ _ _ _ 2 rfl rfl

end Transform

end RuleInliner
