import RuleInliner.Params.Basic

/-!
# Parameter descriptions

Model of `param_descrs` (`params.cpp`). Its implementation keeps two structures: the dictionary
`m_info` from a name to its kind and description, which `get_kind` and `display` read, and the
vector `m_names` of names in insertion order, which `size` and `get_param_name` read. `insert`
touches both, returning early on a name `m_info` already knows; `erase` removes the name from
`m_info` only.

`erase` therefore leaves a described name enumerable by index while its kind is
`CPK_INVALID` and `display` omits it, and inserting it again lists it twice
(`erase_then_insert_enumerates_twice`).

The dictionary is kept as its (name, info) pairs; its iteration order is unspecified, and
`display` sorts the names it finds, so the order of the pairs is never observed. `get_kind`
answers `none` for `CPK_INVALID`. `get_param_name` indexes `m_names` without a bound check; an
index out of range is answered `none`. The `SASSERT`s of `insert` (the name is not numerical; a
second insert repeats the kind) are debug checks and not modelled.
-/

namespace RuleInliner.Params

/-- The information stored for a parameter: its kind and its description (`imp::info`). -/
abbrev Info := Kind × String

/-- `param_descrs::imp`: the dictionary `m_info` and the vector `m_names`. -/
structure Descrs where
  info : List (String × Info)
  names : List String
  deriving DecidableEq, Repr

namespace Descrs

/-- A new `param_descrs`. -/
def empty : Descrs := ⟨[], []⟩

/-- `m_info.find(name, i)`. -/
def find (d : Descrs) (name : String) : Option Info := (d.info.find? (·.1 = name)).map (·.2)

/-- `param_descrs::insert`: nothing when the name is known, otherwise it is added to `m_info`
and appended to `m_names`. -/
def insert (d : Descrs) (name : String) (k : Kind) (descr : String) : Descrs :=
  match d.find name with
  | some _ => d
  | none => ⟨d.info ++ [(name, k, descr)], d.names ++ [name]⟩

/-- `param_descrs::erase`: `m_info.erase(name)`. -/
def erase (d : Descrs) (name : String) : Descrs := ⟨d.info.filter (·.1 ≠ name), d.names⟩

/-- `param_descrs::get_kind`; `none` is `CPK_INVALID`. -/
def getKind (d : Descrs) (name : String) : Option Kind := (d.find name).map (·.1)

/-- `param_descrs::size`: the length of `m_names`. -/
def size (d : Descrs) : Nat := d.names.length

/-- `param_descrs::get_param_name`: `m_names[idx]`. -/
def getParamName (d : Descrs) (idx : Nat) : Option String := d.names[idx]?

/-- `param_descrs::display`: the entries of `m_info` sorted by name (`lt` compares the texts),
one line each. -/
def display (d : Descrs) : List (String × Info) :=
  d.info.mergeSort fun a b => !(String.decLt b.1 a.1).decide

/-- The calls on a `param_descrs`, with names given as symbols or C strings alike. -/
inductive Op where
  | insert (name : String) (k : Kind) (descr : String)
  | erase (name : String)
  deriving DecidableEq, Repr

/-- One call. -/
def step (d : Descrs) : Op → Descrs
  | .insert name k descr => d.insert name k descr
  | .erase name => d.erase name

/-- A sequence of calls on a new `param_descrs`. -/
def run (ops : List Op) : Descrs := ops.foldl step empty

end Descrs

/-- Inserting a parameter and erasing it leaves it enumerable by index (`size()` is `1` and
`get_param_name(0)` is the name) while `get_kind` answers `CPK_INVALID` and `display` shows
nothing; inserting it again lists it twice. -/
theorem erase_then_insert_enumerates_twice (name : String) (k : Kind) (descr : String) :
    (Descrs.run [.insert name k descr, .erase name]).size = 1 ∧
    (Descrs.run [.insert name k descr, .erase name]).getParamName 0 = some name ∧
    (Descrs.run [.insert name k descr, .erase name]).getKind name = none ∧
    (Descrs.run [.insert name k descr, .erase name]).display = [] ∧
    (Descrs.run [.insert name k descr, .erase name, .insert name k descr]).names = [name, name] := by
  simp [Descrs.run, Descrs.step, Descrs.insert, Descrs.erase, Descrs.empty, Descrs.find,
    Descrs.size, Descrs.getParamName, Descrs.getKind, Descrs.display]

end RuleInliner.Params
