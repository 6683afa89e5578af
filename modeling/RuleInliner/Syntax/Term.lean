import Mathlib.Data.List.Basic

/-!
# Terms, atoms and substitutions

The part of z3's AST manager that `dl_mk_rule_inliner.cpp` relies on: terms built from
variables and uninterpreted function symbols, predicate declarations (`func_decl`, with
their AST id and arity), uninterpreted atoms `P(t₁, …, tₙ)`, interpreted constraints, and
substitutions applied to all of them. The AST manager is an external collaborator of the
pass, so this file only fixes the interface the pass uses: structural equality, variable
indices and substitution application.

Application is curried, `f(t₁, t₂)` being `app (app (sym f) t₁) t₂`; this keeps `Term` a
plain inductive, so that equality is decidable and every function on it is structurally
recursive. An interpreted constraint is kept as its term skeleton together with the flag
`has_quantifiers()` that `mk_rule_inliner::has_quantifier` reads.
-/

namespace RuleInliner

/-- First-order terms over variables and uninterpreted function symbols. -/
inductive Term where
  | var (idx : Nat)
  | sym (f : Nat)
  | app (fn arg : Term)
  deriving DecidableEq, Repr, Inhabited

/-- A substitution, one term per variable index. -/
abbrev Subst := Nat → Term

/-- Apply a substitution to every variable of a term. -/
def Term.subst (σ : Subst) : Term → Term
  | .var i => σ i
  | .sym f => .sym f
  | .app s t => .app (s.subst σ) (t.subst σ)

/-- The variable indices occurring in a term, left to right. -/
def Term.vars : Term → List Nat
  | .var i => [i]
  | .sym _ => []
  | .app s t => s.vars ++ t.vars

/-- The identity substitution leaves a term unchanged. -/
@[simp] lemma Term.subst_var (t : Term) : t.subst Term.var = t := by
  induction t with
  | var => rfl
  | sym => rfl
  | app s t ihs iht => simp only [Term.subst, ihs, iht]

/-- A predicate declaration (`func_decl`): its AST id and its arity. -/
structure Pred where
  id : Nat
  arity : Nat
  deriving DecidableEq, Repr, Inhabited

/-- An uninterpreted predicate atom `P(t₁, …, tₙ)`. -/
structure Atom where
  pred : Pred
  args : List Term
  deriving DecidableEq, Repr, Inhabited

/-- Apply a substitution to the arguments of an atom; the predicate is untouched. -/
def Atom.subst (σ : Subst) (a : Atom) : Atom :=
  ⟨a.pred, a.args.map (Term.subst σ)⟩

/-- The variable indices occurring in an atom. -/
def Atom.vars (a : Atom) : List Nat :=
  a.args.flatMap Term.vars

@[simp] lemma Atom.subst_pred (σ : Subst) (a : Atom) : (a.subst σ).pred = a.pred := rfl

/-- An interpreted tail constraint: its term skeleton and whether it holds a quantifier
(z3 `expr::has_quantifiers`). -/
structure Constraint where
  body : Term
  quantified : Bool
  deriving DecidableEq, Repr, Inhabited

/-- Apply a substitution to the free variables of a constraint. -/
def Constraint.subst (σ : Subst) (c : Constraint) : Constraint :=
  ⟨c.body.subst σ, c.quantified⟩

@[simp] lemma Constraint.subst_quantified (σ : Subst) (c : Constraint) :
    (c.subst σ).quantified = c.quantified := rfl

end RuleInliner
