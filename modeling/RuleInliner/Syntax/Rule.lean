import RuleInliner.Syntax.Term
import Mathlib.Data.List.Dedup

/-!
# Rules and rule sets

The `rule` and `rule_set` objects of z3's Datalog engine, as `dl_mk_rule_inliner.cpp` reads
them. A rule `H :- T₁, …, Tₙ` stores its tail in the order the rule manager gives it:
positive uninterpreted atoms (`get_positive_tail_size()` of them), then negated ones (up to
`get_uninterpreted_tail_size()`), then interpreted constraints (up to `get_tail_size()`);
`Rule` keeps these three parts as three lists. `TailElem` is the flat tail vector that
`rule_unifier::apply` builds before handing it to `rule_manager::mk` (`mkRule`), and
`removeDuplicateTails` is `mk_rule_inliner::remove_duplicate_tails`, modelled from the
spec since its body is not in the source. A rule set is the list of its rules in insertion
order; `predicateRules` is `rule_set::get_predicate_rules`.

`Rule.normVars` is `rule::norm_vars` (renumber the variables densely from 0, keeping their
order) and `Rule.maxVar` is `var_counter::get_max_var`; both belong to the rule manager and
are modelled from the spec's description of it.
-/

namespace RuleInliner

/-- Keep the first occurrence of every element, in order. -/
def dedupFirst {α : Type} [DecidableEq α] : List α → List α :=
  go []
where
  go (seen : List α) : List α → List α
    | [] => []
    | a :: l => if a ∈ seen then go seen l else a :: go (a :: seen) l

lemma dedupFirst.go_sublist {α : Type} [DecidableEq α] :
    ∀ (seen l : List α), List.Sublist (dedupFirst.go seen l) l
  | _, [] => .slnil
  | seen, a :: l => by
    unfold dedupFirst.go
    split
    · exact (go_sublist seen l).cons a
    · exact (go_sublist (a :: seen) l).cons₂ a

/-- Removing duplicates keeps a sublist of the input. -/
lemma dedupFirst_sublist {α : Type} [DecidableEq α] (l : List α) : List.Sublist (dedupFirst l) l :=
  dedupFirst.go_sublist [] l

lemma dedupFirst.mem_go {α : Type} [DecidableEq α] {x : α} :
    ∀ (seen l : List α), x ∈ l → x ∈ seen ∨ x ∈ dedupFirst.go seen l
  | _, [], h => absurd h (List.not_mem_nil _)
  | seen, a :: l, h => by
    unfold dedupFirst.go
    rcases List.mem_cons.mp h with rfl | h
    · split
      · exact .inl ‹_›
      · exact .inr (List.mem_cons_self _ _)
    · split
      · exact mem_go seen l h
      · rcases mem_go (a :: seen) l h with h | h
        · rcases List.mem_cons.mp h with rfl | h
          · exact .inr (List.mem_cons_self _ _)
          · exact .inl h
        · exact .inr (List.mem_cons_of_mem _ h)

/-- Removing duplicates keeps every element. -/
lemma subset_dedupFirst {α : Type} [DecidableEq α] (l : List α) : l ⊆ dedupFirst l :=
  fun _ h => (dedupFirst.mem_go [] l h).resolve_left (List.not_mem_nil _)

/-- An element of the flat tail vector: an uninterpreted atom with its negation flag, or
an interpreted constraint. -/
inductive TailElem where
  | atom (a : Atom) (neg : Bool)
  | interp (c : Constraint)
  deriving DecidableEq, Repr, Inhabited

/-- Apply a substitution to a tail element, keeping its polarity. -/
def TailElem.subst (σ : Subst) : TailElem → TailElem
  | .atom a neg => .atom (a.subst σ) neg
  | .interp c => .interp (c.subst σ)

/-- The positive atom of a tail element, if it is one. -/
def TailElem.posAtom? : TailElem → Option Atom
  | .atom a false => some a
  | _ => none

/-- The negated atom of a tail element, if it is one. -/
def TailElem.negAtom? : TailElem → Option Atom
  | .atom a true => some a
  | _ => none

/-- The interpreted constraint of a tail element, if it is one. -/
def TailElem.interp? : TailElem → Option Constraint
  | .interp c => some c
  | _ => none

/-- A Datalog rule `head :- pos, ¬neg, interp` (z3 `rule`). -/
structure Rule where
  head : Atom
  pos : List Atom
  neg : List Atom
  interp : List Constraint
  deriving DecidableEq, Repr, Inhabited

/-- A rule set: its rules in insertion order (z3 `rule_set`). -/
abbrev RuleSet := List Rule

namespace Rule

/-- The head predicate (`rule::get_decl()`). -/
def decl (r : Rule) : Pred := r.head.pred

/-- The whole tail as one vector, in the rule's order. -/
def tail (r : Rule) : List TailElem :=
  r.pos.map (.atom · false) ++ r.neg.map (.atom · true) ++ r.interp.map .interp

/-- The predicates of the uninterpreted tail, positive then negated. -/
def tailPreds (r : Rule) : List Pred := (r.pos ++ r.neg).map Atom.pred

/-- Whether an interpreted tail constraint holds a quantifier
(`mk_rule_inliner::has_quantifier`). -/
def hasQuantifier (r : Rule) : Bool := r.interp.any (·.quantified)

/-- Apply a substitution to every part of a rule. -/
def subst (σ : Subst) (r : Rule) : Rule :=
  ⟨r.head.subst σ, r.pos.map (Atom.subst σ), r.neg.map (Atom.subst σ),
    r.interp.map (Constraint.subst σ)⟩

/-- The variable indices of a rule, head first. -/
def vars (r : Rule) : List Nat :=
  r.head.vars ++ (r.pos ++ r.neg).flatMap Atom.vars ++ r.interp.flatMap (·.body.vars)

/-- Modelled from the spec: the largest variable index of a rule, `0` when it has none
(`var_counter::get_max_var`). -/
def maxVar (r : Rule) : Nat := r.vars.foldr max 0

/-- Modelled from the spec: renumber the variables densely from `0`, keeping their order
(`rule::norm_vars`). -/
def normVars (r : Rule) : Rule :=
  r.subst fun v => .var ((r.vars.dedup.filter (· < v)).length)

@[simp] lemma subst_decl (σ : Subst) (r : Rule) : (r.subst σ).decl = r.decl := rfl
@[simp] lemma subst_pos (σ : Subst) (r : Rule) : (r.subst σ).pos = r.pos.map (Atom.subst σ) := rfl
@[simp] lemma subst_neg (σ : Subst) (r : Rule) : (r.subst σ).neg = r.neg.map (Atom.subst σ) := rfl
@[simp] lemma normVars_decl (r : Rule) : r.normVars.decl = r.decl := rfl
@[simp] lemma normVars_pos (r : Rule) : r.normVars.pos.map Atom.pred = r.pos.map Atom.pred := by
  simp [normVars, Function.comp_def]
@[simp] lemma normVars_neg (r : Rule) : r.normVars.neg.map Atom.pred = r.neg.map Atom.pred := by
  simp [normVars, Function.comp_def]

end Rule

/-- `rule_manager::mk`: build a rule from a head and a flat tail vector, putting positive
atoms first, then negated ones, then interpreted constraints, each in the given order. -/
def mkRule (head : Atom) (tail : List TailElem) : Rule :=
  ⟨head, tail.filterMap TailElem.posAtom?, tail.filterMap TailElem.negAtom?,
    tail.filterMap TailElem.interp?⟩

/-- Modelled from the spec: `mk_rule_inliner::remove_duplicate_tails` drops every tail
element equal, atom and polarity, to an earlier one. -/
def removeDuplicateTails (tail : List TailElem) : List TailElem := dedupFirst tail

/-- The rules of a set whose head is `p`, in insertion order
(`rule_set::get_predicate_rules`). -/
def RuleSet.predicateRules (rs : RuleSet) (p : Pred) : List Rule :=
  rs.filter (·.decl = p)

end RuleInliner
