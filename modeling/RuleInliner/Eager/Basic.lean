import RuleInliner.Bulk.Basic

/-!
# Eager inlining

Model of `is_oriented_rewriter` and the two `do_eager_inlining` functions. Every rule of the
closed set `rules` is rewritten against `rules` itself: a positive tail atom whose predicate
is neither the rule's head nor backed by facts is resolved with its unique candidate rule,
provided that rule is an oriented rewriter; a rule is deleted (and recorded in the model
converter) when its atom has no candidate or when `try_to_inline_rule` fails. The rewriting
of one rule repeats until it no longer changes (`while (r && do_eager_inlining(r, …))`),
which the model runs on fuel (`eagerLoop`).

`try_to_inline_rule` renames the variables of a rule of `rules` in place before inlining into
it; the model does not track that renaming inside `rules`, since it only renames variables of
a rule that is then replaced or deleted.
-/

namespace RuleInliner

/-- `mk_rule_inliner::is_oriented_rewriter`: every positive tail predicate in the head's
stratum is smaller than the head in the order (arity, AST id). -/
def isOrientedRewriter (rules : RuleSet) (r : Rule) : Bool :=
  r.pos.all fun a =>
    !(rules.getPredicateStrat a.pred = rules.getPredicateStrat r.decl &&
      (a.pred.arity > r.decl.arity || (a.pred.arity = r.decl.arity && a.pred.id ≥ r.decl.id)))

/-- The inlining candidate of tail atom `ti` of `r` among `predRules`: `some none` when no
rule defines it, `none` when two rules unify with it (`goto process_next_tail`). -/
def eagerCandidate (ctx : Context) (r : Rule) (ti : Nat) (predRules : List Rule) :
    Option (Option Rule) :=
  match predRules with
  | [] => some none
  | [c] => some (some c)
  | _ =>
    match predRules.filter fun c => (unifyRules ctx r ti c).isSome with
    | [] => some none
    | [c] => some (some c)
    | _ => none

/-- The loop over the positive tail of `do_eager_inlining(rule*, …)`, from tail index `ti`.
`none`: nothing was done (`return false`); `some none`: the rule is deleted; `some (some
res)`: the rule is replaced by `res`. -/
def eagerTail (ctx : Context) (facts : List Pred) (rules : RuleSet) (r : Rule) :
    Nat → List Atom → Converters → Option (Option Rule) × Converters
  | _, [], cv => (none, cv)
  | ti, a :: as, cv =>
    if a.pred = r.decl || a.pred ∈ facts then eagerTail ctx facts rules r (ti + 1) as cv
    else
      match eagerCandidate ctx r ti (rules.predicateRules a.pred) with
      | none => eagerTail ctx facts rules r (ti + 1) as cv
      | some none => (some none, cv.delRule r)
      | some (some c) =>
        if !isOrientedRewriter rules c then eagerTail ctx facts rules r (ti + 1) as cv
        else
          match tryToInlineRule ctx cv r c ti with
          | (some res, cv) => (some (some res), cv)
          | (none, cv) => (some none, cv.delRule r.normVars)

lemma mem_of_eagerCandidate {ctx : Context} {r c : Rule} {ti : Nat} {l : List Rule}
    (h : eagerCandidate ctx r ti l = some (some c)) : c ∈ l := by
  unfold eagerCandidate at h
  split at h
  · cases h
  · cases h; exact List.mem_singleton_self c
  · split at h
    · cases h
    · rename_i heq
      cases h
      exact (List.mem_filter.mp (heq ▸ List.mem_singleton_self c)).1
    · cases h

/-- What a rewrite of the eager stage is: at some positive tail index `i` of `r`, over a
predicate that is neither the head's nor backed by facts, `try_to_inline_rule` succeeds with
a rule `c` of `rules` for that predicate that is an oriented rewriter. -/
lemma eagerTail_eq_some_some {ctx : Context} {facts : List Pred} {rules : RuleSet} {r : Rule} :
    ∀ {ti : Nat} {as : List Atom} {cv : Converters} {res : Rule} {cv' : Converters},
      eagerTail ctx facts rules r ti as cv = (some (some res), cv') →
      ∃ i c cv₀, c ∈ rules ∧ isOrientedRewriter rules c = true ∧ c.decl ≠ r.decl ∧
        c.decl ∉ facts ∧ tryToInlineRule ctx cv₀ r c i = (some res, cv')
  | _, [], _, _, _, h => by cases h
  | ti, a :: as, cv, res, cv', h => by
    rw [eagerTail] at h
    split_ifs at h with hskip
    · exact eagerTail_eq_some_some h
    split at h
    · exact eagerTail_eq_some_some h
    · cases h
    · rename_i c hc
      split_ifs at h with horient
      · exact eagerTail_eq_some_some h
      split at h
      · rename_i htry
        cases h
        obtain ⟨hmem, hdecl⟩ := List.mem_filter.mp (mem_of_eagerCandidate hc)
        simp only [Bool.or_eq_true, decide_eq_true_eq, not_or] at hskip
        have hd : c.decl = a.pred := of_decide_eq_true hdecl
        exact ⟨ti, c, cv, hmem, by simpa using horient, hd ▸ hskip.1, hd ▸ hskip.2, htry⟩
      · cases h

/-- `mk_rule_inliner::do_eager_inlining(rule*, rule_set const&, rule_ref&)`. -/
def doEagerInliningRule (ctx : Context) (facts : List Pred) (rules : RuleSet) (cv : Converters)
    (r : Rule) : Option (Option Rule) × Converters :=
  eagerTail ctx facts rules r 0 r.pos cv

/-- The loop `while (r && do_eager_inlining(r, *rules, replacement))`, on fuel: the final
rule (`none` once deleted), the converters and `done_something`. -/
def eagerLoop (ctx : Context) (facts : List Pred) (rules : RuleSet) :
    Nat → Rule → Converters → Bool → Except PassError (Option Rule × Converters × Bool)
  | 0, _, _, _ => .error .outOfFuel
  | n + 1, r, cv, done =>
    match doEagerInliningRule ctx facts rules cv r with
    | (none, cv) => .ok (some r, cv, done)
    | (some none, cv) => .ok (none, cv, true)
    | (some (some r'), cv) => eagerLoop ctx facts rules n r' cv true

/-- The outer loop of `do_eager_inlining(scoped_ptr<rule_set>&)` over the rules of `rules`,
collecting the rewritten rules into `res`. -/
def eagerRules (ctx : Context) (fuel : Nat) (facts : List Pred) (rules : RuleSet) :
    List Rule → RuleSet → Converters → Bool → Except PassError (RuleSet × Converters × Bool)
  | [], res, cv, done => .ok (res, cv, done)
  | r :: rs, res, cv, done =>
    match eagerLoop ctx facts rules fuel r cv done with
    | .error e => .error e
    | .ok (r', cv, done) => eagerRules ctx fuel facts rules rs (res ++ r'.toList) cv done

/-- `mk_rule_inliner::do_eager_inlining(scoped_ptr<rule_set>&)`: the new rule set (the old
one when nothing was done), `done_something` and the converters. -/
def doEagerInlining (ctx : Context) (fuel : Nat) (st : Inliner) (rules : RuleSet) :
    Except PassError (RuleSet × Bool × Converters) :=
  match eagerRules ctx fuel st.predsWithFacts rules rules [] st.cv false with
  | .error e => .error e
  | .ok (res, cv, done) => .ok (if done then res else rules, done, cv)

end RuleInliner
