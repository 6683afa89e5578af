import RuleInliner.Complete

/-!
# Eager inlining keeps the meaning of every predicate

`do_eager_inlining` rewrites each rule of a closed set against the set itself: a positive tail
atom is resolved with its unique candidate rule, and a rule is deleted when its atom has no
candidate or when `try_to_inline_rule` fails. Every resolvent is closed in what the set derives
(`Sound.lean`); this module shows the converse, so that the rewritten set derives exactly what
the set derives, on every predicate (`doEagerInlining_complete`).

The proof goes by the height of derivations in the original set (`DerivesIn`, the bottom-up
iterates). An atom derived at height `d + 1` by an instance of `r` has a body derivable within
`d`. When eager inlining resolves an atom of that body, the atom lies over a predicate without
facts, so a rule of the set derives it within `d`; that rule unifies with the atom, so it is the
candidate (`eagerCandidate_complete`) and `try_to_inline_rule` succeeds with an instance whose
body is again derivable within `d` (`eagerTail_complete`). Along the rewriting loop the head of
the instance stays, so the rule eager inlining keeps for `r` has an instance with the same head
and a body derivable within `d` (`eagerLoop_complete`, `eagerRules_complete`), and by induction
on `d` the rewritten set derives every atom of height `d + 1`.

Besides the contracts of `Complete.lean`, the rules must have no quantified constraint (what
`transform_rules`, whose output is the only set the pass hands to eager inlining, returns has
none) and the facts must lie over `m_preds_with_facts`. Then a rule the loop deletes is one no
instance of which has a derivable body (`eagerLoop_deletes_dead`): it takes part in no
derivation.
-/

namespace RuleInliner

/-- The atoms derivable from the facts `F` by the rules of `R` with a derivation of height at
most `n`, negated atoms read in `N`: the `n`-th bottom-up iterate. -/
def DerivesIn (T : Theory) (F : Interp) (R : RuleSet) (N : Interp) : Nat → Interp
  | 0 => F
  | n + 1 => fun a => F a ∨ ∃ r ∈ R, ∃ ν, r.head.subst ν = a ∧ r.Body T N (DerivesIn T F R N n) ν

variable {T : Theory} {F N : Interp} {R : RuleSet}

lemma Rule.Body.mono {r : Rule} {M M' : Interp} (h : ∀ a, M a → M' a) {ν : Subst}
    (hb : r.Body T N M ν) : r.Body T N M' ν :=
  ⟨fun a ha => h _ (hb.1 a ha), hb.2⟩

lemma DerivesIn.mono : ∀ {m n : Nat}, m ≤ n → ∀ {a : Atom},
    DerivesIn T F R N m a → DerivesIn T F R N n a
  | 0, 0, _, _, h => h
  | 0, _ + 1, _, _, h => .inl h
  | _ + 1, 0, hmn, _, _ => absurd hmn (Nat.not_succ_le_zero _)
  | _ + 1, _ + 1, hmn, _, h =>
    h.imp_right fun ⟨r, hr, ν, he, hb⟩ =>
      ⟨r, hr, ν, he, hb.mono fun _ => DerivesIn.mono (Nat.le_of_succ_le_succ hmn)⟩

/-- Finitely many atoms with derivations have derivations under one bound. -/
lemma DerivesIn.exists_bound {ν : Subst} :
    ∀ {as : List Atom}, (∀ a ∈ as, ∃ n, DerivesIn T F R N n (a.subst ν)) →
      ∃ n, ∀ a ∈ as, DerivesIn T F R N n (a.subst ν)
  | [], _ => ⟨0, fun _ h => absurd h (List.not_mem_nil _)⟩
  | a :: as, h => by
    obtain ⟨m, hm⟩ := h a (List.mem_cons_self _ _)
    obtain ⟨n, hn⟩ := DerivesIn.exists_bound fun b hb => h b (List.mem_cons_of_mem _ hb)
    refine ⟨max m n, List.forall_mem_cons.mpr ⟨DerivesIn.mono (le_max_left _ _) hm,
      fun b hb => DerivesIn.mono (le_max_right _ _) (hn b hb)⟩⟩

/-- Every derivable atom has a derivation of some height. -/
lemma Derives.exists_derivesIn {a : Atom} (h : Derives T F R N a) :
    ∃ n, DerivesIn T F R N n a := by
  induction h with
  | fact hf => exact ⟨0, hf⟩
  | @rule r ν hr _ hneg hint ih =>
    obtain ⟨n, hn⟩ := DerivesIn.exists_bound ih
    exact ⟨n + 1, .inr ⟨r, hr, ν, rfl, hn, hneg, hint⟩⟩

/-- An atom that is not a fact and has a derivation of height at most `n` is the head of an
instance of a rule whose body has derivations of height at most `n - 1`. -/
lemma DerivesIn.rule_of_not_fact {n : Nat} {b : Atom} (h : DerivesIn T F R N n b) (hb : ¬ F b) :
    ∃ m, m + 1 = n ∧ ∃ r ∈ R, ∃ ν, r.head.subst ν = b ∧ r.Body T N (DerivesIn T F R N m) ν := by
  cases n with
  | zero => exact absurd h hb
  | succ m => exact ⟨m, rfl, h.resolve_left hb⟩

section Eager

variable {ctx : Context} {facts : List Pred} {rules : RuleSet}
  (hctx : ctx.PreservesMeaning T) (hsound : ctx.UnifierSound)
  (hcomp : ctx.UnifierComplete) (hqf : ctx.KeepsQuantifierFree)
  (hrules : ∀ c ∈ rules, c.hasQuantifier = false) (hfacts : ∀ a, F a → a.pred ∈ facts)

section Candidate

include hsound hcomp

/-- When a rule `c` of the candidate list has an instance whose head is an instance of tail atom
`ti` of `r`, the candidate search of `do_eager_inlining` does not report that no rule unifies,
and the candidate it picks is `c`. -/
lemma eagerCandidate_complete {r c : Rule} {ti : Nat} {ν μ : Subst} {l : List Rule}
    (hc : c ∈ l) (hatom : r.pos[ti]?.map (Atom.subst ν) = some (c.head.subst μ)) :
    eagerCandidate ctx r ti l ≠ some none ∧
      ∀ c', eagerCandidate ctx r ti l = some (some c') → c' = c := by
  have hunif : (unifyRules ctx r ti c).isSome := by
    obtain ⟨σ, -, hσ, -⟩ := unifyRules_factors (Context.mostGeneral_of hsound hcomp) hatom
    rw [hσ]
    rfl
  have hfilt : c ∈ l.filter fun c => (unifyRules ctx r ti c).isSome := List.mem_filter.mpr ⟨hc, hunif⟩
  unfold eagerCandidate
  split
  · exact absurd hc (List.not_mem_nil _)
  · refine ⟨(fun h => by cases h), fun c' h => ?_⟩
    cases h
    exact (List.mem_singleton.mp hc).symm
  · split
    · rename_i heq
      exact absurd (heq ▸ hfilt) (List.not_mem_nil _)
    · rename_i heq
      refine ⟨(fun h => by cases h), fun c' h => ?_⟩
      cases h
      exact (List.mem_singleton.mp (heq ▸ hfilt)).symm
    · exact ⟨(fun h => by cases h), fun _ h => by cases h⟩

end Candidate

include hctx hsound hcomp hqf hrules hfacts

/-- The tail loop of `do_eager_inlining` on a quantifier-free rule with an instance whose body
is derivable within height `d` does not delete the rule, and a rule it replaces it with is
quantifier-free and has an instance with the same head whose body is derivable within `d`. -/
lemma eagerTail_complete {r : Rule} (hrq : r.hasQuantifier = false) {d : Nat} {ν : Subst}
    (hb : r.Body T N (DerivesIn T F rules N d) ν) :
    ∀ (cv : Converters) {ti : Nat} {as : List Atom}, as = r.pos.drop ti →
      (eagerTail ctx facts rules r ti as cv).1 ≠ some none ∧
      ∀ res, (eagerTail ctx facts rules r ti as cv).1 = some (some res) →
        res.hasQuantifier = false ∧
          ∃ μ, res.head.subst μ = r.head.subst ν ∧ res.Body T N (DerivesIn T F rules N d) μ
  | _, _, [], _ => ⟨(fun h => by cases h), fun _ h => by cases h⟩
  | cv, ti, a :: as, has => by
    have hti : r.pos[ti]? = some a := by
      rw [← Nat.add_zero ti, ← List.getElem?_drop, ← has, List.getElem?_cons_zero]
    have has' : as = r.pos.drop (ti + 1) := by rw [← List.drop_drop, ← has]; rfl
    have ih := fun cv => eagerTail_complete hrq hb cv has'
    rw [eagerTail]
    split_ifs with hskip
    · exact ih cv
    -- a rule of the set derives the atom within `d`, and it is the candidate
    have hnf : ¬ F (a.subst ν) := fun hf => hskip (by
      simp only [Bool.or_eq_true, decide_eq_true_eq]
      exact .inr (hfacts (a.subst ν) hf))
    obtain ⟨m, hmd, c, hc, μ, hcμ, hcb⟩ :=
      (hb.1 a (List.getElem?_mem hti)).rule_of_not_fact hnf
    have hatom : r.pos[ti]?.map (Atom.subst ν) = some (c.head.subst μ) := by
      rw [hti, Option.map_some', hcμ]
    have hcp : c ∈ rules.predicateRules a.pred :=
      List.mem_filter.mpr ⟨hc, decide_eq_true (Rule.decl_eq_of_subst_head (b := a.subst ν) hcμ)⟩
    obtain ⟨hnone, huniq⟩ := eagerCandidate_complete hsound hcomp hcp hatom
    split
    · exact ih cv
    · exact absurd ‹_› hnone
    · rename_i c₀ hc₀
      obtain rfl : c = c₀ := (huniq c₀ hc₀).symm
      split_ifs
      · exact ih cv
      obtain ⟨res, hres, hresq, μ', h₁, h₂⟩ := tryToInlineRule_complete hctx hsound hcomp hqf cv
        hrq (hrules c hc) hatom
        (((Rule.body_iff_erasePos (List.getElem?_eq_some_iff.mp hti).1 ν).mp hb).2)
        (hcb.mono fun _ => DerivesIn.mono (by omega))
      rcases htry : tryToInlineRule ctx cv r c ti with ⟨_ | res', cv'⟩ <;>
        rw [htry] at hres <;> cases hres
      exact ⟨(fun h => by cases h), fun _ h => by cases h; exact ⟨hresq, μ', h₁, h₂⟩⟩

/-- The rewriting loop `while (r && do_eager_inlining(r, …))` keeps, for a quantifier-free rule
with an instance whose body is derivable within height `d`, a rule with an instance that has the
same head and a body derivable within `d`. -/
lemma eagerLoop_complete {d : Nat} :
    ∀ {n : Nat} {r : Rule} {cv : Converters} {done : Bool} {out : Option Rule × Converters × Bool},
      eagerLoop ctx facts rules n r cv done = .ok out → r.hasQuantifier = false → ∀ {ν : Subst},
      r.Body T N (DerivesIn T F rules N d) ν →
      ∃ r' ∈ out.1, ∃ μ, r'.head.subst μ = r.head.subst ν ∧ r'.Body T N (DerivesIn T F rules N d) μ
  | 0, _, _, _, _, h => by cases h
  | n + 1, r, cv, done, out, h => by
    intro hrq ν hb
    obtain ⟨hnone, hsome⟩ := eagerTail_complete hctx hsound hcomp hqf hrules hfacts hrq hb cv
      (show r.pos = r.pos.drop 0 from rfl)
    rw [eagerLoop] at h
    split at h
    · cases h
      exact ⟨r, rfl, ν, rfl, hb⟩
    · rename_i heq
      exact absurd (congrArg Prod.fst heq) hnone
    · rename_i r' cv' heq
      obtain ⟨hq', μ, h₁, h₂⟩ := hsome r' (congrArg Prod.fst heq)
      obtain ⟨r'', hr'', μ', h₃, h₄⟩ := eagerLoop_complete h hq' h₂
      exact ⟨r'', hr'', μ', h₃.trans h₁, h₄⟩

/-- The rewriting loop deletes a quantifier-free rule only when no instance of it has a
derivable body. -/
lemma eagerLoop_deletes_dead {n : Nat} {r : Rule} {cv cv' : Converters} {done done' : Bool}
    (h : eagerLoop ctx facts rules n r cv done = .ok (none, cv', done'))
    (hrq : r.hasQuantifier = false) (ν : Subst) : ¬ r.Body T N (Derives T F rules N) ν := fun hb => by
  obtain ⟨d, hd⟩ := DerivesIn.exists_bound fun a ha => (hb.1 a ha).exists_derivesIn
  obtain ⟨_, hr', -⟩ := eagerLoop_complete hctx hsound hcomp hqf hrules hfacts h hrq ⟨hd, hb.2⟩
  cases hr'

end Eager

/-- The outer loop of `do_eager_inlining` only appends to what it has collected. -/
lemma eagerRules_extends {ctx : Context} {fuel : Nat} {facts : List Pred} {rules : RuleSet} :
    ∀ {rs res : List Rule} {cv : Converters} {done : Bool} {out : RuleSet × Converters × Bool},
      eagerRules ctx fuel facts rules rs res cv done = .ok out → List.IsPrefix res out.1
  | [], _, _, _, _, h => by cases h; exact List.prefix_refl _
  | r :: rs, res, cv, done, out, h => by
    rw [eagerRules] at h
    split at h
    · cases h
    · exact (List.prefix_append _ _).trans (eagerRules_extends h)

section Rules

variable {ctx : Context} {facts : List Pred} {rules : RuleSet}
  (hctx : ctx.PreservesMeaning T) (hsound : ctx.UnifierSound)
  (hcomp : ctx.UnifierComplete) (hqf : ctx.KeepsQuantifierFree)
  (hrules : ∀ c ∈ rules, c.hasQuantifier = false) (hfacts : ∀ a, F a → a.pred ∈ facts)
include hctx hsound hcomp hqf hrules hfacts

/-- The outer loop of `do_eager_inlining` keeps, for every quantifier-free rule it walks with an
instance whose body is derivable within height `d`, a rule with an instance that has the same
head and a body derivable within `d`. -/
lemma eagerRules_complete {fuel d : Nat} :
    ∀ {rs res : List Rule} {cv : Converters} {done : Bool} {out : RuleSet × Converters × Bool},
      eagerRules ctx fuel facts rules rs res cv done = .ok out →
      ∀ r ∈ rs, r.hasQuantifier = false → ∀ {ν : Subst}, r.Body T N (DerivesIn T F rules N d) ν →
      ∃ r' ∈ out.1, ∃ μ, r'.head.subst μ = r.head.subst ν ∧
        r'.Body T N (DerivesIn T F rules N d) μ
  | [], _, _, _, _, _ => fun _ h => absurd h (List.not_mem_nil _)
  | r :: rs, res, cv, done, out, h => by
    intro t ht htq ν hb
    rw [eagerRules] at h
    split at h
    · cases h
    rename_i o cv' done' hloop
    rcases List.mem_cons.mp ht with rfl | ht
    · obtain ⟨r', hr', μ, h₁, h₂⟩ := eagerLoop_complete hctx hsound hcomp hqf hrules hfacts hloop htq hb
      refine ⟨r', (eagerRules_extends h).subset (List.mem_append_right _ ?_), μ, h₁, h₂⟩
      exact Option.mem_toList.mpr hr'
    · exact eagerRules_complete h t ht htq hb

end Rules

/-- On a set of rules without quantified constraints, with `m_unif` returning most general
unifiers and the collaborators keeping instances and adding no quantifier: whatever the set
derives from a fact base over `m_preds_with_facts`, what `do_eager_inlining` returns derives
too. -/
lemma doEagerInlining_derives {ctx : Context} {fuel : Nat} {st : Inliner} {rules : RuleSet}
    {out : RuleSet × Bool × Converters} (hctx : ctx.PreservesMeaning T)
    (hsound : ctx.UnifierSound) (hcomp : ctx.UnifierComplete) (hqf : ctx.KeepsQuantifierFree)
    (hrules : ∀ r ∈ rules, r.hasQuantifier = false) (hF : ∀ a, F a → a.pred ∈ st.predsWithFacts)
    (h : doEagerInlining ctx fuel st rules = .ok out) {a : Atom} (ha : Derives T F rules N a) :
    Derives T F out.1 N a := by
  obtain ⟨d, hd⟩ := ha.exists_derivesIn
  unfold doEagerInlining at h
  split at h
  · cases h
  rename_i res cv done heager
  cases h
  split_ifs
  swap
  · exact ha
  -- by induction on the height, the rewritten set derives every atom the set derives
  suffices ∀ d b, DerivesIn T F rules N d b → Derives T F res N b from this d a hd
  intro d
  induction d with
  | zero => exact fun _ hb => .fact hb
  | succ d ih =>
    rintro b (hb | ⟨r, hr, ν, rfl, hb⟩)
    · exact .fact hb
    · obtain ⟨r', hr', μ, h₁, h₂⟩ := eagerRules_complete hctx hsound hcomp hqf hrules hF heager r hr
        (hrules r hr) hb
      exact h₁ ▸ Derives.closed hr' (h₂.mono fun _ => ih _)

end RuleInliner
