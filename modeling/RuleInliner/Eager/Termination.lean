import Mathlib.Logic.Hydra
import RuleInliner.Eager.Basic
import RuleInliner.Reference

/-!
# Eager inlining terminates

`do_eager_inlining(scoped_ptr<rule_set>&)` rewrites each rule with
`while (r && do_eager_inlining(r, *rules, replacement))`, which has no bound. A rewrite
resolves a positive tail atom over `p` with the only candidate rule `c` of `rules` for `p`,
and only when `c` is an oriented rewriter: each positive tail predicate of `c` in the stratum
of `p` is smaller than `p` in (arity, AST id). The tail predicates of `c` are never in a higher
stratum than `p`, so all its positive ones precede `p` in the order (stratum, arity, id)
(`eagerLt_of_isOrientedRewriter`), and on a closed set its negated ones do as well
(`eagerLt_of_neg`).

The positive tail of the resolvent is, as a multiset of predicates, the rule's without `p` and
with `c`'s added, less the duplicates `remove_duplicate_tails` drops: one step of the multiset
order `Relation.CutExpand` followed by removals (`eagerStep_of_tryToInlineRule`). That order is
well-founded (`WellFounded.cutExpand`), so the loop stops on every rule (`eagerLoop_finishes`),
and so does the whole stage (`doEagerInlining_finishes`).
-/

namespace RuleInliner

/-- The key `is_oriented_rewriter` compares predicates by: the stratum in `rules`, the arity
and the AST id. -/
def eagerKey (rules : RuleSet) (p : Pred) : Nat × Nat × Nat :=
  (rules.getPredicateStrat p, p.arity, p.id)

/-- `p` precedes `q` in the lexicographic order on `eagerKey`. -/
def EagerLt (rules : RuleSet) (p q : Pred) : Prop :=
  Prod.Lex (· < ·) (Prod.Lex (· < ·) (· < ·)) (eagerKey rules p) (eagerKey rules q)

lemma eagerLt_wf (rules : RuleSet) : WellFounded (EagerLt rules) :=
  InvImage.wf (eagerKey rules) (wellFounded_lt.prod_lex (wellFounded_lt.prod_lex wellFounded_lt))

/-- The positive tail predicates of a rule, as a multiset. -/
def posPreds (r : Rule) : Multiset Pred := (r.pos.map Atom.pred : List Pred)

/-- One rewrite of the eager loop on positive tail predicates: remove one predicate and add
smaller ones (`Relation.CutExpand`), then possibly remove more. -/
def EagerStep (rules : RuleSet) (s' s : Multiset Pred) : Prop :=
  ∃ n, s' ≤ n ∧ Relation.CutExpand (EagerLt rules) n s

/-- Removing elements is a chain of `CutExpand` steps that add nothing. -/
lemma reflTransGen_cutExpand_of_le {α : Type} {r : α → α → Prop} {s' n : Multiset α}
    (h : s' ≤ n) : Relation.ReflTransGen (Relation.CutExpand r) s' n := by
  obtain ⟨d, rfl⟩ := Multiset.le_iff_exists_add.mp h
  induction d using Multiset.induction with
  | empty => rw [add_zero]
  | cons a d ih =>
    refine (ih (Multiset.le_add_right _ _)).tail ⟨0, a, by simp, ?_⟩
    rw [add_zero, Multiset.add_cons, ← Multiset.singleton_add, add_comm]

lemma eagerStep_wf (rules : RuleSet) : WellFounded (EagerStep rules) :=
  Subrelation.wf (fun ⟨_, hle, hcut⟩ => Relation.TransGen.tail' (reflTransGen_cutExpand_of_le hle) hcut)
    (eagerLt_wf rules).cutExpand.transGen

variable {rules : RuleSet}

/-- Every positive tail predicate of an oriented rewriter of `rules` precedes its head. -/
lemma eagerLt_of_isOrientedRewriter {c : Rule} (hc : c ∈ rules)
    (ho : isOrientedRewriter rules c = true) : ∀ b ∈ c.pos, EagerLt rules b.pred c.decl := by
  intro b hb
  have hle := RuleSet.getPredicateStrat_le
    ⟨c, hc, rfl, List.mem_map_of_mem Atom.pred (List.mem_append_left c.neg hb)⟩
  have hb' := List.all_eq_true.mp ho b hb
  simp only [Bool.not_eq_true', Bool.and_eq_false_iff, decide_eq_false_iff_not,
    Bool.or_eq_false_iff, not_lt, not_and, not_le] at hb'
  simp only [EagerLt, eagerKey, Prod.lex_def]
  omega

/-- On a closed set, every negated tail predicate of a rule lies in a lower stratum than its
head, so precedes it. -/
lemma eagerLt_of_neg (hR : rules.close = true) {c : Rule} (hc : c ∈ rules) :
    ∀ b ∈ c.neg, EagerLt rules b.pred c.decl := by
  intro b hb
  have hle := RuleSet.getPredicateStrat_le
    ⟨c, hc, rfl, List.mem_map_of_mem Atom.pred (List.mem_append_right c.pos hb)⟩
  simp only [RuleSet.close, RuleSet.stratifiedNegation, List.all_eq_true] at hR
  have hne := hR c hc b hb
  simp only [ne_eq, decide_not, Bool.not_eq_true', decide_eq_false_iff_not] at hne
  exact Prod.Lex.left _ _ (lt_of_le_of_ne hle hne)

/-- A resolvent with a source whose positive tail predicates precede its head is one
`EagerStep` below the target. -/
lemma eagerStep_of_tryToInlineRule {ctx : Context} {cv cv' : Converters} {r c res : Rule}
    {i : Nat} (h : tryToInlineRule ctx cv r c i = (some res, cv'))
    (hc : ∀ b ∈ c.pos, EagerLt rules b.pred c.decl) :
    EagerStep rules (posPreds res) (posPreds r) := by
  obtain ⟨hi, hpred, -, hpos, -⟩ := tryToInlineRule_shape h
  set L := r.pos.map Atom.pred
  have hi' : i < L.length := by simpa [L] using hi
  have hLi : L[i] = c.decl := by simpa [L] using hpred
  -- the target's predicates are the resolved one and the others
  have hL : (L : Multiset Pred) = c.decl ::ₘ (L.eraseIdx i : Multiset Pred) := by
    rw [← hLi, Multiset.cons_coe, Multiset.coe_eq_coe]
    exact (List.perm_cons_erase (List.getElem_mem hi')).trans (.cons _ (List.erase_getElem hi'))
  refine ⟨(L.eraseIdx i ++ c.pos.map Atom.pred : List Pred), Multiset.coe_le.mpr hpos.subperm,
    (c.pos.map Atom.pred : List Pred), c.decl, fun x hx => ?_, ?_⟩
  · obtain ⟨b, hb, rfl⟩ := List.mem_map.mp (Multiset.mem_coe.mp hx)
    exact hc b hb
  · rw [posPreds, hL, ← Multiset.coe_add, Multiset.cons_add, ← Multiset.singleton_add, add_comm]

/-- A rewrite of the eager stage is one `EagerStep` down. -/
lemma eagerStep_of_eagerTail {ctx : Context} {facts : List Pred} {r : Rule} {ti : Nat}
    {as : List Atom} {cv : Converters} {res : Rule} {cv' : Converters}
    (h : eagerTail ctx facts rules r ti as cv = (some (some res), cv')) :
    EagerStep rules (posPreds res) (posPreds r) :=
  let ⟨_, _, _, hc, ho, _, _, htry⟩ := eagerTail_eq_some_some h
  eagerStep_of_tryToInlineRule htry (eagerLt_of_isOrientedRewriter hc ho)

section Loops
variable (ctx : Context) (facts : List Pred) (rules : RuleSet)

/-- The loop `while (r && do_eager_inlining(r, *rules, replacement))` stops on every rule. -/
lemma eagerLoop_finishes (r : Rule) :
    ∀ cv done, Finishes (fun F => eagerLoop ctx facts rules F r cv done) fun _ => True := by
  refine (InvImage.wf posPreds (eagerStep_wf rules)).induction
    (C := fun r => ∀ cv done, Finishes (fun F => eagerLoop ctx facts rules F r cv done) fun _ => True)
    r fun r ih cv done => ?_
  obtain ⟨x, hx⟩ | ⟨r', cv', hd⟩ :
      (∃ x, ∀ n, eagerLoop ctx facts rules (n + 1) r cv done = .ok x) ∨
        ∃ r' cv', doEagerInliningRule ctx facts rules cv r = (some (some r'), cv') := by
    rcases hd : doEagerInliningRule ctx facts rules cv r with ⟨_ | _ | r', cv'⟩
    · exact .inl ⟨_, fun n => by rw [eagerLoop, hd]⟩
    · exact .inl ⟨_, fun n => by rw [eagerLoop, hd]⟩
    · exact .inr ⟨r', cv', rfl⟩
  · refine ⟨1, x, trivial, fun F hF => ?_⟩
    obtain ⟨n, rfl⟩ : ∃ n, F = n + 1 := ⟨F - 1, by omega⟩
    exact hx n
  · -- a rewrite: the rest of the loop runs on a rule one `EagerStep` down
    obtain ⟨K, x, -, hK⟩ := ih r' (eagerStep_of_eagerTail hd) cv' true
    refine ⟨K + 1, x, trivial, fun F hF => ?_⟩
    obtain ⟨n, rfl⟩ : ∃ n, F = n + 1 := ⟨F - 1, by omega⟩
    show eagerLoop ctx facts rules (n + 1) r cv done = _
    rw [eagerLoop, hd]
    exact hK n (by omega)

lemma eagerRules_finishes : ∀ (rs : List Rule) (res : RuleSet) (cv : Converters) (done : Bool),
    Finishes (fun F => eagerRules ctx F facts rules rs res cv done) fun _ => True
  | [], _, _, _ => ⟨0, _, trivial, fun _ _ => rfl⟩
  | r :: rs, res, cv, done => by
    obtain ⟨K₁, ⟨r', cv', done'⟩, -, h₁⟩ := eagerLoop_finishes ctx facts rules r cv done
    obtain ⟨K₂, x, -, h₂⟩ := eagerRules_finishes rs (res ++ r'.toList) cv' done'
    refine ⟨K₁ + K₂, x, trivial, fun F hF => ?_⟩
    have e₁ : eagerLoop ctx facts rules F r cv done = .ok (r', cv', done') := h₁ F (by omega)
    show eagerRules ctx F facts rules (r :: rs) res cv done = _
    rw [eagerRules, e₁]
    exact h₂ F (by omega)

/-- The eager stage stops. -/
lemma doEagerInlining_finishes (st : Inliner) :
    Finishes (fun F => doEagerInlining ctx F st rules) fun _ => True := by
  obtain ⟨K, ⟨res, cv, done⟩, -, h⟩ := eagerRules_finishes ctx st.predsWithFacts rules rules [] st.cv false
  refine ⟨K, (if done then res else rules, done, cv), trivial, fun F hF => ?_⟩
  have e : eagerRules ctx F st.predsWithFacts rules rules [] st.cv false = .ok (res, cv, done) :=
    h F hF
  show doEagerInlining ctx F st rules = _
  rw [doEagerInlining, e]

end Loops

/-- On every closed rule set, each rewrite of the eager loop resolves a positive tail atom `i`
of the rule, over a predicate `p` that is neither the head's nor backed by facts, with the rule
`c` of `p`, all of whose tail predicates precede `p` in the order (stratum, arity, AST id) of
`is_oriented_rewriter`; the resolvent's positive tail predicates are those of the rule without
atom `i` and those of `c`, with possibly some dropped; and the loop, and the whole stage, stop. -/
theorem eagerLoop_terminates {ctx : Context} {facts : List Pred} {rules : RuleSet}
    (hR : rules.close = true) :
    (∀ cv r r' cv', doEagerInliningRule ctx facts rules cv r = (some (some r'), cv') →
      ∃ (i : Nat) (hi : i < r.pos.length) (c : Rule), c ∈ rules ∧ c.decl = r.pos[i].pred ∧
        c.decl ≠ r.decl ∧ c.decl ∉ facts ∧
        (∀ b ∈ c.pos ++ c.neg, EagerLt rules b.pred c.decl) ∧
        List.Sublist (r'.pos.map Atom.pred)
          ((r.pos.map Atom.pred).eraseIdx i ++ c.pos.map Atom.pred)) ∧
    (∀ r cv done, Finishes (fun F => eagerLoop ctx facts rules F r cv done) fun _ => True) ∧
    ∀ st, Finishes (fun F => doEagerInlining ctx F st rules) fun _ => True := by
  refine ⟨fun cv r r' cv' h => ?_, eagerLoop_finishes ctx facts rules,
    doEagerInlining_finishes ctx rules⟩
  obtain ⟨i, c, cv₀, hc, ho, hhead, hfacts, htry⟩ := eagerTail_eq_some_some h
  obtain ⟨hi, hpred, -, hpos, -⟩ := tryToInlineRule_shape htry
  refine ⟨i, hi, c, hc, hpred.symm, hhead, hfacts, fun b hb => ?_, hpos⟩
  rcases List.mem_append.mp hb with hb | hb
  · exact eagerLt_of_isOrientedRewriter hc ho b hb
  · exact eagerLt_of_neg hR hc b hb

/-- `Out(x) :- P(x)`, `P(x) :- Q(x)`, `Q(x) :- B(x)`, with facts for `B`. -/
def eagerChainRules : RuleSet :=
  [⟨⟨⟨0, 1⟩, [.var 0]⟩, [⟨⟨1, 1⟩, [.var 0]⟩], [], []⟩,
   ⟨⟨⟨1, 1⟩, [.var 0]⟩, [⟨⟨2, 1⟩, [.var 0]⟩], [], []⟩,
   ⟨⟨⟨2, 1⟩, [.var 0]⟩, [⟨⟨3, 1⟩, [.var 0]⟩], [], []⟩]

/-- The chain `Out`, `P`, `Q` over the facts of `B`. -/
theorem eagerLoop_terminates_chain :
    let ctx := Context.reference [⟨0, 1⟩] [⟨3, 1⟩] ⟨[]⟩
    eagerChainRules.close = true ∧
    (∀ cv r r' cv', doEagerInliningRule ctx [⟨3, 1⟩] eagerChainRules cv r = (some (some r'), cv') →
      ∃ (i : Nat) (hi : i < r.pos.length) (c : Rule), c ∈ eagerChainRules ∧
        c.decl = r.pos[i].pred ∧ c.decl ≠ r.decl ∧ c.decl ∉ [⟨3, 1⟩] ∧
        (∀ b ∈ c.pos ++ c.neg, EagerLt eagerChainRules b.pred c.decl) ∧
        List.Sublist (r'.pos.map Atom.pred)
          ((r.pos.map Atom.pred).eraseIdx i ++ c.pos.map Atom.pred)) ∧
    (∀ r cv done, Finishes (fun F => eagerLoop ctx [⟨3, 1⟩] eagerChainRules F r cv done)
      fun _ => True) ∧
    ∀ st, Finishes (fun F => doEagerInlining ctx F st eagerChainRules) fun _ => True :=
  ⟨rfl, @eagerLoop_terminates _ _ eagerChainRules rfl⟩

end RuleInliner
