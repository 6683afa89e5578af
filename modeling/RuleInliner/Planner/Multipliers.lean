import RuleInliner.Planner.Frame

/-!
# What the multiplier guard guarantees

`forbid_multiple_multipliers` first walks the strata of the cycle-free candidate set in
order. For the predicate `p` of a stratum it walks the positive tail atoms of the rules of
`p`; at the first atom over an admissible predicate with more than one rule it forbids `p`
(when `p` has more than one rule itself, `is_multi_head_pred`), forbids the tail predicate
(when `p` occurs in more than one tail, `is_multi_occurrence_pred`), or promotes
`m_head_pred_ctr[p]` by the tail predicate's count; at a second such atom it forbids `p`.
The second loop walks the input rules with a non-admissible head and forbids every
multi-rule admissible tail predicate after the first.

`planCandidates_multipliers` states what the analyses leave. A rule with a non-admissible
head has at most one positive tail atom over an admissible predicate with more than one rule
(`multiHeadAtoms`). A rule of an admissible `p` with no tail atom over `p` has at most one,
and `p`'s own count covers its count; a rule of `p` with such an atom, or with a tail atom
over `p` itself, is the only rule of `p`. The first loop keeps its promise because the
strata come in topological order: the count of every predicate a rule of `p` depends on is
final before the stratum of `p` is scanned (`RuleSet.not_mem_of_dep`).
-/

namespace RuleInliner

namespace Inliner
variable {ctx : Context}

/-- The positive tail atoms of `r` over admissible predicates with more than one rule: the
multipliers of `r`. -/
def multiHeadAtoms (ctx : Context) (st : Inliner) (r : Rule) : List Atom :=
  r.pos.filter fun a => st.inliningAllowed ctx a.pred && 1 < st.headPredCtr a.pred

/-- Forbidding and promoting never make a predicate admissible. -/
lemma Frame.allowed {st st' : Inliner} (h : Frame st st') {q : Pred}
    (hq : st'.inliningAllowed ctx q = true) : st.inliningAllowed ctx q = true := by
  have hc := h.head q
  simp only [inliningAllowed, h.facts, h.negOcc, h.tail, Bool.and_eq_true, Bool.not_eq_true',
    Bool.or_eq_false_iff, Bool.or_eq_true, decide_eq_true_eq, decide_eq_false_iff_not] at hq ⊢
  obtain ⟨⟨hn, hF⟩, hb⟩ := hq
  exact ⟨⟨hn, fun hm => hF (h.forbidden hm)⟩, by omega⟩

lemma not_mem_forbidden {st : Inliner} {q : Pred} (hq : st.inliningAllowed ctx q = true) :
    q ∉ st.forbiddenPreds := by
  intro hm
  simp [inliningAllowed, hm] at hq

/-- An admissible predicate has a count of at most four. -/
lemma headPredCtr_le_four {st : Inliner} {q : Pred} (hq : st.inliningAllowed ctx q = true) :
    st.headPredCtr q ≤ 4 := by
  simp only [inliningAllowed, Bool.and_eq_true, Bool.or_eq_true, decide_eq_true_eq] at hq
  omega

section Cycles

/-- A pass of `forbid_preds_from_cycles` that reports nothing forbidden changed nothing: it
only met strata of one predicate. -/
lemma foldl_cycleStep_of_false :
    ∀ (L : List (List Pred)) (acc : Inliner × Bool), (L.foldl cycleStep acc).2 = false →
      L.foldl cycleStep acc = acc ∧ ∀ g ∈ L, g.length ≤ 1
  | [], _, _ => ⟨rfl, by simp⟩
  | g :: L, acc, h => by
    obtain ⟨hL, hg⟩ := foldl_cycleStep_of_false L (cycleStep acc g) h
    rw [List.foldl_cons, hL] at h ⊢
    rcases g with _ | ⟨x, _ | ⟨y, t⟩⟩
    · exact ⟨rfl, by simpa using hg⟩
    · exact ⟨rfl, by simpa using hg⟩
    · cases h

lemma eq_filter_of_createAllowedRuleSet {st : Inliner} {orig cand : RuleSet}
    (h : st.createAllowedRuleSet ctx orig = .ok cand) :
    cand = orig.filter fun r => st.inliningAllowed ctx r.decl := by
  unfold createAllowedRuleSet at h
  dsimp only at h
  split_ifs at h
  cases h
  rfl

/-- The cycle-breaking loop ends with the admissible rules of the input, in strata of one
predicate each. -/
lemma cycleLoop_spec {orig : RuleSet} :
    ∀ {n : Nat} {st st' : Inliner} {cand cand' : RuleSet},
      cand = orig.filter (fun r => st.inliningAllowed ctx r.decl) →
      cycleLoop ctx orig n st cand = .ok (st', cand') →
      cand' = orig.filter (fun r => st'.inliningAllowed ctx r.decl) ∧
        ∀ g ∈ cand'.strats, g.length ≤ 1
  | 0, _, _, _, _, _, h => by cases h
  | n + 1, st, st', cand, cand', hc, h => by
    unfold cycleLoop at h
    dsimp only at h
    split_ifs at h with hf
    · split at h
      · cases h
      · exact cycleLoop_spec (eq_filter_of_createAllowedRuleSet ‹_›) h
    · cases h
      obtain ⟨hst, hg⟩ := foldl_cycleStep_of_false cand.strats (st, false) (by simpa using hf)
      simp only [forbidPredsFromCycles, hst]
      exact ⟨hc, hg⟩

end Cycles

section Scan

/-- The locals of the first loop while it scans the rules of `p`, against the state `st` the
scan of `p` started from: the other counts stay, the count of `p` moves only when
`is_multi_head_pred` is set, and a `goto` has forbidden `p`. -/
structure ScanInv (st : Inliner) (p : Pred) (s : HeadScan) : Prop where
  frame : Frame st s.st
  other : ∀ q, q ≠ p → s.st.headPredCtr q = st.headPredCtr q
  single : s.isMultiHeadPred = false →
    s.st.headPredCtr p = st.headPredCtr p ∧ st.headPredCtr p ≤ 1
  jumped : s.jumped = true → p ∈ s.st.forbiddenPreds

lemma ScanInv.start (acc : Inliner × Bool) (p : Pred) :
    ScanInv acc.1 p ⟨acc.1, acc.1.headPredCtr p > 1, false, acc.2⟩ :=
  ⟨Frame.rfl' _, fun _ _ => rfl, fun h => ⟨rfl, by simpa using h⟩, fun h => by cases h⟩

/-- What one atom of the first loop can do: nothing (after a `goto`, or the atom is not over
an admissible multi-rule predicate), or, for such an atom, forbid `p` (`is_multi_head_pred`),
forbid the atom's predicate (`is_multi_occurrence_pred`), or promote the count of `p`. -/
lemma headScanAtom_cases (p : Pred) (mo : Bool) (s : HeadScan) (a : Atom) :
    (headScanAtom ctx p mo s a = s ∧ (s.jumped = true ∨ s.st.inliningAllowed ctx a.pred = false ∨
      s.st.headPredCtr a.pred ≤ 1)) ∨
    (s.jumped = false ∧ s.st.inliningAllowed ctx a.pred = true ∧ 1 < s.st.headPredCtr a.pred ∧
      ((s.isMultiHeadPred = true ∧ headScanAtom ctx p mo s a =
          { s with st := s.st.forbid p, jumped := true, somethingForbidden := true }) ∨
        (s.isMultiHeadPred = false ∧ mo = true ∧ headScanAtom ctx p mo s a =
          { s with st := s.st.forbid a.pred, somethingForbidden := true }) ∨
        (s.isMultiHeadPred = false ∧ mo = false ∧ headScanAtom ctx p mo s a =
          { s with
            isMultiHeadPred := true
            st := { s.st with
              headPredCtr :=
                s.st.headPredCtr.set p (s.st.headPredCtr p * s.st.headPredCtr a.pred) } }))) := by
  dsimp only [headScanAtom]
  split_ifs with h₁ h₂ h₃
  · simp only [Bool.or_eq_true, Bool.not_eq_true', decide_eq_true_eq, or_assoc] at h₁
    exact .inl ⟨rfl, h₁⟩
  all_goals
    simp only [Bool.or_eq_true, Bool.not_eq_true', decide_eq_true_eq, not_or, not_le,
      Bool.not_eq_false] at h₁
    obtain ⟨⟨hj, ha⟩, hc⟩ := h₁
    simp_all

lemma ScanInv.step {st : Inliner} {p : Pred} {s : HeadScan} (hs : ScanInv st p s) (mo : Bool)
    (a : Atom) : ScanInv st p (headScanAtom ctx p mo s a) := by
  have hf : Frame st (headScanAtom ctx p mo s a).st :=
    hs.frame.trans (frame_headScanAtom p mo s a)
  rcases headScanAtom_cases p mo s a with
    ⟨heq, -⟩ | ⟨hj, -, -, ⟨hm, heq⟩ | ⟨hm, -, heq⟩ | ⟨-, -, heq⟩⟩ <;> rw [heq] at hf ⊢
  · exact hs
  · exact ⟨hf, hs.other, fun h => absurd h (by simp [hm]), fun _ => List.mem_insert_self _ _⟩
  · exact ⟨hf, hs.other, hs.single, fun h => List.mem_insert_of_mem (hs.jumped h)⟩
  · refine ⟨hf, fun q hq => ?_, fun h => absurd h (by simp), fun h => absurd h (by simp [hj])⟩
    simp only [Counter.set, if_neg hq]
    exact hs.other q hq

lemma ScanInv.foldl {st : Inliner} {p : Pred} (mo : Bool) :
    ∀ (as : List Atom) (s : HeadScan), ScanInv st p s →
      ScanInv st p (as.foldl (headScanAtom ctx p mo) s)
  | [], _, hs => hs
  | a :: as, _, hs => ScanInv.foldl mo as _ (hs.step mo a)

/-- The atoms of `as` over a predicate other than `p` that is admissible in `st'` and had
more than one rule when the scan of `p` began in `st`. -/
def otherMultis (ctx : Context) (st st' : Inliner) (p : Pred) (as : List Atom) : List Atom :=
  as.filter fun a => a.pred != p && st'.inliningAllowed ctx a.pred && 1 < st.headPredCtr a.pred

/-- What the scan of the atoms `as` of the rules of `p` leaves, if `p` is still admissible in
the final state `s'`: at most one of them is a multiplier, none if `is_multi_head_pred` was
set when the scan of `as` began; the promotion it caused covers its count; and an atom over
`p` itself means `p` had at most one rule. -/
lemma scanAtoms_spec {st : Inliner} {p : Pred} (hp : 1 ≤ st.headPredCtr p) (mo : Bool) :
    ∀ (as : List Atom) (s s' : HeadScan), ScanInv st p s →
      as.foldl (headScanAtom ctx p mo) s = s' → s'.st.inliningAllowed ctx p = true →
      (otherMultis ctx st s'.st p as).length ≤ (if s.isMultiHeadPred then 0 else 1) ∧
      (∀ a ∈ otherMultis ctx st s'.st p as, st.headPredCtr a.pred ≤ s'.st.headPredCtr p) ∧
      ((∃ a ∈ as, a.pred = p) → st.headPredCtr p ≤ 1)
  | [], _, _, _, _, _ => ⟨by simp [otherMultis], by simp [otherMultis], by simp⟩
  | a :: as, s, s', hs, hfold, hp' => by
    have hfr : Frame (headScanAtom ctx p mo s a).st s'.st :=
      hfold ▸ frame_foldl HeadScan.st _ (frame_headScanAtom p mo) as _
    have hnp : p ∉ s'.st.forbiddenPreds := not_mem_forbidden hp'
    obtain ⟨ih₁, ih₂, ih₃⟩ := scanAtoms_spec hp mo as _ s' (hs.step mo a) hfold hp'
    have hfr₀ : Frame s.st s'.st := (frame_headScanAtom p mo s a).trans hfr
    have hj : s.jumped = false := by
      cases hj : s.jumped
      · rfl
      · exact absurd (hfr₀.forbidden (hs.jumped hj)) hnp
    simp only [otherMultis, List.filter_cons, List.mem_cons, exists_eq_or_imp] at ih₁ ih₂ ⊢
    rcases headScanAtom_cases p mo s a with
      ⟨heq, htriv⟩ | ⟨-, hadm, hcnt, ⟨-, heq⟩ | ⟨-, -, heq⟩ | ⟨hm, -, heq⟩⟩ <;>
      rw [heq] at hfr ih₁
    · -- nothing happened: the atom is no multiplier, and if it is over `p`, `p` had one rule
      have hna : ¬(a.pred != p && s'.st.inliningAllowed ctx a.pred &&
          1 < st.headPredCtr a.pred) = true := by
        simp only [Bool.and_eq_true, bne_iff_ne, decide_eq_true_eq]
        rintro ⟨⟨hne, hadm⟩, hc⟩
        rcases htriv with h | h | h
        · simp [hj] at h
        · simp [hfr₀.allowed hadm] at h
        · rw [hs.other _ hne] at h; omega
      rw [if_neg hna]
      refine ⟨ih₁, ih₂, fun h => h.elim (fun he => ?_) ih₃⟩
      rcases htriv with h | h | h
      · simp [hj] at h
      · simp [he, hfr₀.allowed hp'] at h
      · exact (hs.frame.head p).trans (he ▸ h)
    · exact absurd (hfr.forbidden (List.mem_insert_self _ _)) hnp
    · -- the atom's predicate is forbidden
      have hq : s'.st.inliningAllowed ctx a.pred = true → a.pred ∉ s'.st.forbiddenPreds :=
        not_mem_forbidden
      have hF : a.pred ∈ s'.st.forbiddenPreds := hfr.forbidden (List.mem_insert_self _ _)
      have hna : ¬(a.pred != p && s'.st.inliningAllowed ctx a.pred &&
          1 < st.headPredCtr a.pred) = true := by
        simp only [Bool.and_eq_true]
        exact fun h => hq h.1.2 hF
      rw [if_neg hna]
      exact ⟨ih₁, ih₂, fun h => h.elim (fun he => absurd (he ▸ hF) hnp) ih₃⟩
    · -- promotion: the count of `p` becomes at least the atom's count
      obtain ⟨hc₀, hc₁⟩ := hs.single hm
      have hne : a.pred ≠ p := fun he => by rw [he] at hcnt; omega
      have hcnt' := hs.other _ hne
      have hpro := hfr.head p
      simp only [Counter.set, if_pos rfl] at hpro
      have hle : st.headPredCtr a.pred ≤ s'.st.headPredCtr p := by
        rw [hc₀, hcnt'] at hpro
        exact le_trans (Nat.le_mul_of_pos_left _ hp) hpro
      simp only [ite_true, Nat.le_zero, List.length_eq_zero] at ih₁
      simp only [ih₁, hm]
      refine ⟨by split <;> simp, fun x hx => ?_, fun h => h.elim (absurd · hne) ih₃⟩
      split at hx
      · rw [List.mem_singleton.mp hx]; exact hle
      · cases hx

lemma foldl_rules_eq_flatMap (f : HeadScan → Atom → HeadScan) (R : List Rule) (s : HeadScan) :
    R.foldl (fun s r => r.pos.foldl f s) s = (R.flatMap Rule.pos).foldl f s := by
  rw [List.flatMap, List.foldl_flatten, List.foldl_map]

/-- The scan of a stratum touches no count but its predicate's. -/
lemma headScanStratum_ctr (X : RuleSet) (acc : Inliner × Bool) {g : List Pred} {q : Pred}
    (hq : q ∉ g) : (headScanStratum ctx X acc g).1.headPredCtr q = acc.1.headPredCtr q := by
  cases g with
  | nil => rfl
  | cons p _ =>
    dsimp only [headScanStratum]
    rw [foldl_rules_eq_flatMap]
    exact (ScanInv.foldl _ _ _ (ScanInv.start acc p)).other q
      fun h => hq (h ▸ List.mem_cons_self _ _)

lemma headScanStrata_ctr (X : RuleSet) {q : Pred} :
    ∀ (L : List (List Pred)) (acc : Inliner × Bool), (∀ g ∈ L, q ∉ g) →
      (L.foldl (headScanStratum ctx X) acc).1.headPredCtr q = acc.1.headPredCtr q
  | [], _, _ => rfl
  | g :: L, acc, h => by
    rw [List.foldl_cons, headScanStrata_ctr X L _ fun g' hg' => h g' (List.mem_cons_of_mem _ hg'),
      headScanStratum_ctr X acc (h g (List.mem_cons_self _ _))]

/-- What the scan of the stratum of `p` leaves, if `p` is still admissible after it. -/
lemma headScanStratum_spec (X : RuleSet) (acc : Inliner × Bool) (p : Pred) (rest : List Pred)
    {st' : Inliner} (h : (headScanStratum ctx X acc (p :: rest)).1 = st')
    (hp : 1 ≤ acc.1.headPredCtr p) (hadm : st'.inliningAllowed ctx p = true) :
    (otherMultis ctx acc.1 st' p ((X.predicateRules p).flatMap Rule.pos)).length ≤
        (if 1 < acc.1.headPredCtr p then 0 else 1) ∧
      (∀ a ∈ otherMultis ctx acc.1 st' p ((X.predicateRules p).flatMap Rule.pos),
        acc.1.headPredCtr a.pred ≤ st'.headPredCtr p) ∧
      ((∃ a ∈ (X.predicateRules p).flatMap Rule.pos, a.pred = p) → acc.1.headPredCtr p ≤ 1) := by
  subst h
  dsimp only [headScanStratum] at hadm ⊢
  rw [foldl_rules_eq_flatMap] at hadm ⊢
  simpa only [decide_eq_true_eq, gt_iff_lt] using
    scanAtoms_spec hp _ _ _ _ (ScanInv.start acc p) rfl hadm

end Scan

/-- A filter by a weaker test, on the list's members, keeps more. -/
lemma filter_sublist_filter {α : Type} {p q : α → Bool} {l : List α}
    (h : ∀ a ∈ l, p a = true → q a = true) : List.Sublist (l.filter p) (l.filter q) := by
  have e : (l.filter p).filter q = l.filter p := List.filter_eq_self.mpr fun a ha =>
    h a (List.mem_filter.mp ha).1 (List.mem_filter.mp ha).2
  exact e ▸ (List.filter_sublist l).filter q

/-- What the first loop of `forbid_multiple_multipliers` leaves, on a candidate set whose strata
hold one predicate each: a rule of an admissible `p` has at most one multiplier over another
predicate, `p`'s count covers its count, and a rule of `p` with such a multiplier, or with a tail
atom over `p`, is the only rule of `p`. -/
lemma firstLoop_spec {X : RuleSet} (hsingle : ∀ g ∈ X.strats, g.length ≤ 1) {st₂ st₁ : Inliner}
    (hcount : ∀ p, (X.predicateRules p).length ≤ st₂.headPredCtr p) (f : Bool)
    (h₁ : (X.strats.foldl (headScanStratum ctx X) (st₂, f)).1 = st₁) {p : Pred}
    (hp : st₁.inliningAllowed ctx p = true) {r : Rule} (hr : r ∈ X.predicateRules p) :
    (r.pos.filter fun a => a.pred != p && st₁.inliningAllowed ctx a.pred &&
        1 < st₁.headPredCtr a.pred).length ≤ 1 ∧
      (∀ a ∈ r.pos.filter (fun a => a.pred != p && st₁.inliningAllowed ctx a.pred &&
        1 < st₁.headPredCtr a.pred), st₁.headPredCtr a.pred ≤ st₁.headPredCtr p) ∧
      ((∃ a ∈ r.pos, a.pred = p) ∨ r.pos.filter (fun a => a.pred != p &&
        st₁.inliningAllowed ctx a.pred && 1 < st₁.headPredCtr a.pred) ≠ [] →
        (X.predicateRules p).length ≤ 1) := by
  obtain ⟨hrX, hd⟩ := List.mem_filter.mp hr
  replace hd : r.decl = p := of_decide_eq_true hd
  have hpX : p ∈ X.preds := hd ▸ X.decl_mem_preds hrX
  have hgS : X.stratumOf p ∈ X.strats := RuleSet.mem_strats.mpr ⟨p, hpX, rfl⟩
  have hself := X.self_mem_stratumOf hpX
  obtain ⟨pre, post, hs⟩ := List.append_of_mem hgS
  -- the stratum of `p` is `[p]`, and no other stratum holds `p`
  have hgp := X.stratumOf_eq_singleton hsingle hpX
  have hnot := X.not_mem_of_strats_eq hs hself
  rw [hs, List.foldl_append, List.foldl_cons, hgp] at h₁
  set acc_b := pre.foldl (headScanStratum ctx X) (st₂, f)
  have hframe : Frame (headScanStratum ctx X acc_b [p]).1 st₁ :=
    h₁ ▸ frame_foldl Prod.fst _ (frame_headScanStratum X) post _
  have hcb : acc_b.1.headPredCtr p = st₂.headPredCtr p :=
    headScanStrata_ctr X pre _ fun g hg => hnot g (List.mem_append_left _ hg)
  have hca : st₁.headPredCtr p = (headScanStratum ctx X acc_b [p]).1.headPredCtr p :=
    h₁ ▸ headScanStrata_ctr X post _ fun g hg => hnot g (List.mem_append_right _ hg)
  have hone : 1 ≤ acc_b.1.headPredCtr p :=
    hcb ▸ le_trans (List.length_pos_of_mem hr) (hcount p)
  obtain ⟨hlen, hcov, hsl⟩ :=
    headScanStratum_spec X acc_b p [] rfl hone (hframe.allowed hp)
  -- the count of a predicate `r` depends on was final when the stratum of `p` was scanned
  have hfinal : ∀ a ∈ r.pos, a.pred ≠ p →
      st₁.headPredCtr a.pred = acc_b.1.headPredCtr a.pred := by
    intro a ha hne
    have hdep : X.Dep p a.pred :=
      ⟨r, hrX, hd, List.mem_map_of_mem Atom.pred (List.mem_append_left r.neg ha)⟩
    rw [← h₁, headScanStrata_ctr X post _ (RuleSet.not_mem_of_dep hsingle hdep hne hs),
      headScanStratum_ctr X acc_b (by simpa using hne)]
  have hpos : List.Sublist r.pos ((X.predicateRules p).flatMap Rule.pos) :=
    List.sublist_flatten_of_mem (List.mem_map_of_mem _ hr)
  have hsub : List.Sublist (r.pos.filter fun a => a.pred != p && st₁.inliningAllowed ctx a.pred &&
      1 < st₁.headPredCtr a.pred) (otherMultis ctx acc_b.1 (headScanStratum ctx X acc_b [p]).1 p
        ((X.predicateRules p).flatMap Rule.pos)) := by
    refine (filter_sublist_filter fun a ha hm => ?_).trans (hpos.filter _)
    simp only [Bool.and_eq_true, bne_iff_ne, decide_eq_true_eq] at hm ⊢
    obtain ⟨⟨hne, hadm⟩, hc⟩ := hm
    exact ⟨⟨hne, hframe.allowed hadm⟩, hfinal a ha hne ▸ hc⟩
  have hcb₁ : acc_b.1.headPredCtr p ≤ 1 → (X.predicateRules p).length ≤ 1 :=
    fun h => (hcount p).trans (hcb ▸ h)
  refine ⟨hsub.length_le.trans (hlen.trans (by split <;> omega)), fun a ha => ?_, fun h => hcb₁ ?_⟩
  · obtain ⟨ha', hm⟩ := List.mem_filter.mp ha
    have hne : a.pred ≠ p := by
      simp only [Bool.and_eq_true, bne_iff_ne] at hm
      exact hm.1.1
    rw [hfinal a ha' hne, hca]
    exact hcov a (hsub.subset ha)
  · rcases h with ⟨a, ha, he⟩ | h
    · exact hsl ⟨a, hpos.subset ha, he⟩
    · have := List.length_pos.mpr (fun h' => h (List.eq_nil_of_sublist_nil (h' ▸ hsub)))
      split at hlen <;> omega

section TailScan

lemma frame_tailScanAtom (s : TailScan) (a : Atom) : Frame s.st (tailScanAtom ctx s a).st := by
  dsimp only [tailScanAtom]
  split_ifs
  · exact Frame.rfl' _
  · exact frame_forbid _ _
  · exact Frame.rfl' _

@[simp] lemma headPredCtr_tailScanAtom (s : TailScan) (a : Atom) :
    (tailScanAtom ctx s a).st.headPredCtr = s.st.headPredCtr := by
  dsimp only [tailScanAtom]
  split_ifs <;> rfl

lemma headPredCtr_foldl_tailScanAtom :
    ∀ (as : List Atom) (s : TailScan),
      (as.foldl (tailScanAtom ctx) s).st.headPredCtr = s.st.headPredCtr
  | [], _ => rfl
  | a :: as, s => (headPredCtr_foldl_tailScanAtom as _).trans (headPredCtr_tailScanAtom s a)

@[simp] lemma headPredCtr_tailScanRule (acc : Inliner × Bool) (r : Rule) :
    (tailScanRule ctx acc r).1.headPredCtr = acc.1.headPredCtr := by
  dsimp only [tailScanRule]
  split_ifs
  · rfl
  · exact headPredCtr_foldl_tailScanAtom _ _

/-- What one atom of the second loop can do: nothing, forbid the atom's predicate (a second
multiplier), or set `has_multi_head_pred` (the first). -/
lemma tailScanAtom_cases (s : TailScan) (a : Atom) :
    (tailScanAtom ctx s a = s ∧
      (s.st.inliningAllowed ctx a.pred = false ∨ s.st.headPredCtr a.pred ≤ 1)) ∨
    (s.hasMultiHeadPred = true ∧
      tailScanAtom ctx s a = { s with st := s.st.forbid a.pred, somethingForbidden := true }) ∨
    (s.hasMultiHeadPred = false ∧ tailScanAtom ctx s a = { s with hasMultiHeadPred := true }) := by
  dsimp only [tailScanAtom]
  split_ifs with h₁ h₂
  · simp only [Bool.or_eq_true, Bool.not_eq_true', decide_eq_true_eq] at h₁
    exact .inl ⟨rfl, h₁⟩
  · exact .inr (.inl ⟨h₂, rfl⟩)
  · exact .inr (.inr ⟨by simpa using h₂, rfl⟩)

/-- After the second loop's scan of the atoms `as`, at most one of them is over a multi-rule
predicate admissible in the final state `s'`, and none if `has_multi_head_pred` was set. -/
lemma tailScanAtoms_spec :
    ∀ (as : List Atom) (s s' : TailScan), as.foldl (tailScanAtom ctx) s = s' →
      (as.filter fun a => s'.st.inliningAllowed ctx a.pred && 1 < s.st.headPredCtr a.pred).length ≤
        (if s.hasMultiHeadPred then 0 else 1)
  | [], _, _, _ => by simp
  | a :: as, s, s', h => by
    have ih := tailScanAtoms_spec as _ s' h
    have hfr : Frame (tailScanAtom ctx s a).st s'.st :=
      h ▸ frame_foldl TailScan.st _ frame_tailScanAtom as _
    rw [headPredCtr_tailScanAtom] at ih
    rw [List.filter_cons]
    rcases tailScanAtom_cases s a with ⟨heq, htriv⟩ | ⟨-, heq⟩ | ⟨hm, heq⟩ <;> rw [heq] at ih hfr
    · -- nothing happened: the atom is no multiplier in `s'`
      rw [if_neg]
      · exact ih
      · simp only [Bool.and_eq_true, decide_eq_true_eq, not_and, not_lt]
        intro hadm
        rcases htriv with h | h
        · simp [hfr.allowed hadm] at h
        · exact h
    · -- a second multiplier: its predicate is forbidden
      rw [if_neg]
      · exact ih
      · simp only [Bool.and_eq_true, not_and]
        exact fun hadm => absurd (hfr.forbidden (List.mem_insert_self _ _)) (not_mem_forbidden hadm)
    · -- the first multiplier
      simp only [ite_true, Nat.le_zero, List.length_eq_zero] at ih
      simp only [ih, hm]
      split <;> simp

/-- What the second loop leaves: a rule it walks (one with a non-admissible head) has at most
one multiplier in the final state; a rule it skips had an admissible head when it began. -/
lemma secondLoop_spec :
    ∀ (rs : List Rule) (acc : Inliner × Bool) {st' : Inliner},
      (rs.foldl (tailScanRule ctx) acc).1 = st' →
      st'.headPredCtr = acc.1.headPredCtr ∧
        ∀ r ∈ rs, acc.1.inliningAllowed ctx r.decl = true ∨ (st'.multiHeadAtoms ctx r).length ≤ 1
  | [], _, _, h => ⟨h ▸ rfl, by simp⟩
  | r :: rs, acc, st', h => by
    obtain ⟨hc, ih⟩ := secondLoop_spec rs (tailScanRule ctx acc r) h
    have hfr : Frame (tailScanRule ctx acc r).1 st' :=
      h ▸ frame_foldl Prod.fst _ frame_tailScanRule rs _
    rw [headPredCtr_tailScanRule] at hc
    refine ⟨hc, fun r' hr' => ?_⟩
    rcases List.mem_cons.mp hr' with rfl | hr'
    · by_cases hd : acc.1.inliningAllowed ctx r'.decl = true
      · exact .inl hd
      · have hrule : (tailScanRule ctx acc r').1 =
            (r'.pos.foldl (tailScanAtom ctx) ⟨acc.1, false, acc.2⟩).st := by
          simp only [tailScanRule, if_neg hd]
        have hs := tailScanAtoms_spec r'.pos ⟨acc.1, false, acc.2⟩
          (r'.pos.foldl (tailScanAtom ctx) ⟨acc.1, false, acc.2⟩) rfl
        simp only [Bool.false_eq_true, ite_false] at hs
        refine .inr (le_trans (List.Sublist.length_le (filter_sublist_filter fun a _ ha => ?_)) hs)
        simp only [Bool.and_eq_true, decide_eq_true_eq] at ha ⊢
        exact ⟨(hrule ▸ hfr).allowed ha.1, hc ▸ ha.2⟩
    · exact (ih r' hr').imp_left (frame_tailScanRule acc r).allowed

end TailScan

section Plan

/-- `count_pred_occurrences` adds the number of rules of `p` to its count. -/
lemma headPredCtr_foldl_countRule (p : Pred) :
    ∀ (orig : RuleSet) (st : Inliner),
      (orig.foldl countRule st).headPredCtr p = st.headPredCtr p + (orig.predicateRules p).length
  | [], _ => rfl
  | r :: orig, st => by
    rw [List.foldl_cons, headPredCtr_foldl_countRule p orig]
    simp only [countRule, Counter.inc, RuleSet.predicateRules, List.filter_cons]
    by_cases h : r.decl = p
    · simp only [h, ite_true, decide_True, List.length_cons]
      omega
    · simp [h, Ne.symm h]

lemma length_predicateRules_le_countPredOccurrences (st : Inliner) (orig : RuleSet) (p : Pred) :
    (orig.predicateRules p).length ≤ (st.countPredOccurrences ctx orig).headPredCtr p := by
  simp only [countPredOccurrences, headPredCtr_foldl_countRule]
  omega

/-- Keeping the rules of admissible heads keeps all rules of an admissible predicate. -/
lemma predicateRules_filter {adm : Pred → Bool} {p : Pred} (hp : adm p = true) (orig : RuleSet) :
    RuleSet.predicateRules (orig.filter fun r => adm r.decl) p = orig.predicateRules p := by
  unfold RuleSet.predicateRules
  rw [List.filter_filter]
  exact List.filter_congr fun r _ => by by_cases h : r.decl = p <;> simp [h, hp]

/-- The candidate set the filling loop walks holds every rule of a predicate admissible at its
end. -/
lemma predicateRules_planCandidates {fuel : Nat} {st₀ st : Inliner} {orig cand : RuleSet}
    (h : st₀.planCandidates ctx fuel orig = .ok (st, cand)) {p : Pred}
    (hp : st.inliningAllowed ctx p = true) : cand.predicateRules p = orig.predicateRules p := by
  obtain ⟨c₁, st₂, c₂, h₁, h₂, rfl, h₃⟩ := planCandidates_inv h
  have hc₂ := (cycleLoop_spec (eq_filter_of_createAllowedRuleSet h₁) h₂).1
  split_ifs at h₃
  · rw [eq_filter_of_createAllowedRuleSet h₃, predicateRules_filter hp]
  · rw [← Except.ok.inj h₃, hc₂,
      predicateRules_filter ((frame_forbidMultipleMultipliers st₂ orig c₂).allowed hp)]

/-- What the analyses of `plan_inlining` leave in `m_head_pred_ctr` and `inlining_allowed`. A
rule with a non-admissible head has at most one multiplier. A rule of an admissible `p` with no
tail atom over `p` has at most one, and the count of `p` covers the multiplier's count. A rule
of `p` with a multiplier, or with a tail atom over `p`, is the only rule of `p`. -/
theorem planCandidates_multipliers {fuel : Nat} {st₀ st : Inliner} {orig cand : RuleSet}
    (h : st₀.planCandidates ctx fuel orig = .ok (st, cand)) :
    (∀ r ∈ orig, st.inliningAllowed ctx r.decl = false → (st.multiHeadAtoms ctx r).length ≤ 1) ∧
    ∀ p, st.inliningAllowed ctx p = true → ∀ r ∈ orig.predicateRules p,
      ((∀ a ∈ r.pos, a.pred ≠ p) → (st.multiHeadAtoms ctx r).length ≤ 1 ∧
        ∀ a ∈ st.multiHeadAtoms ctx r, st.headPredCtr a.pred ≤ st.headPredCtr p) ∧
      ((∃ a ∈ r.pos, a.pred = p) ∨ st.multiHeadAtoms ctx r ≠ [] →
        (orig.predicateRules p).length ≤ 1) := by
  obtain ⟨c₁, st₂, c₂, h₁, h₂, hst, -⟩ := planCandidates_inv h
  obtain ⟨hc₂, hsingle⟩ := cycleLoop_spec (eq_filter_of_createAllowedRuleSet h₁) h₂
  have hcount : ∀ p, (c₂.predicateRules p).length ≤ st₂.headPredCtr p := fun p => by
    rw [hc₂]
    exact (((List.filter_sublist _).filter _).length_le.trans
      (length_predicateRules_le_countPredOccurrences st₀ orig p)).trans
      ((frame_cycleLoop h₂).head p)
  -- the state between the two loops of `forbid_multiple_multipliers`
  set acc₁ := c₂.strats.foldl (headScanStratum ctx c₂) (st₂, false)
  obtain ⟨hc, hsecond⟩ := secondLoop_spec orig acc₁ hst.symm
  have hfr : Frame acc₁.1 st := hst ▸ frame_foldl Prod.fst _ frame_tailScanRule orig acc₁
  have hfr₂ : Frame st₂ acc₁.1 :=
    frame_foldl Prod.fst _ (frame_headScanStratum c₂) c₂.strats (st₂, false)
  have hR : ∀ p, acc₁.1.inliningAllowed ctx p = true →
      c₂.predicateRules p = orig.predicateRules p := fun p hp => by
    rw [hc₂, predicateRules_filter (hfr₂.allowed hp)]
  -- a multiplier in `st` over another predicate than the head was one after the first loop
  have hpt : ∀ (r : Rule) (a : Atom), (st.inliningAllowed ctx a.pred &&
      1 < st.headPredCtr a.pred) = true → a.pred ≠ r.decl → (a.pred != r.decl &&
        acc₁.1.inliningAllowed ctx a.pred && 1 < acc₁.1.headPredCtr a.pred) = true := by
    intro r a hm hne
    simp only [Bool.and_eq_true, bne_iff_ne, decide_eq_true_eq] at hm ⊢
    exact ⟨⟨hne, hfr.allowed hm.1⟩, hc ▸ hm.2⟩
  have hsub : ∀ r : Rule, (∀ a ∈ r.pos, st.inliningAllowed ctx a.pred = true → a.pred ≠ r.decl) →
      List.Sublist (st.multiHeadAtoms ctx r) (r.pos.filter fun a => a.pred != r.decl &&
        acc₁.1.inliningAllowed ctx a.pred && 1 < acc₁.1.headPredCtr a.pred) := fun r hns =>
    filter_sublist_filter fun a ha hm => hpt r a hm (hns a ha (Bool.and_eq_true _ _ ▸ hm).1)
  refine ⟨fun r hr hd => ?_, fun p hp r hr => ?_⟩
  · -- a non-admissible head: walked by the second loop, or its stratum was scanned by the first
    refine (hsecond r hr).elim (fun h₁ => ?_) id
    have hrc : r ∈ orig.predicateRules r.decl := List.mem_filter.mpr ⟨hr, by simp⟩
    obtain ⟨hlen, -, -⟩ := firstLoop_spec hsingle hcount false rfl h₁ ((hR _ h₁).symm ▸ hrc)
    exact (hsub r fun a _ ha he => by simp [he ▸ ha] at hd).length_le.trans hlen
  · have hp₁ := hfr.allowed hp
    obtain ⟨-, hd⟩ := List.mem_filter.mp hr
    replace hd : r.decl = p := of_decide_eq_true hd
    subst hd
    obtain ⟨hlen, hcov, hone⟩ :=
      firstLoop_spec hsingle hcount false rfl hp₁ ((hR _ hp₁).symm ▸ hr)
    refine ⟨fun hns => ?_, fun h => hR _ hp₁ ▸ hone ?_⟩
    · have hs := hsub r fun a ha _ => hns a ha
      refine ⟨hs.length_le.trans hlen, fun a ha => ?_⟩
      rw [hc]
      exact hcov a (hs.subset ha)
    · rcases h with h | hne
      · exact .inl h
      obtain ⟨a, ha⟩ := List.exists_mem_of_ne_nil _ hne
      obtain ⟨ha', hm⟩ := List.mem_filter.mp ha
      by_cases he : a.pred = r.decl
      · exact .inl ⟨a, ha', he⟩
      · exact .inr (List.ne_nil_of_mem (List.mem_filter.mpr ⟨ha', hpt r a hm he⟩))

end Plan

end Inliner

end RuleInliner
