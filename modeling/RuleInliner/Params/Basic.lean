import Mathlib.Data.Rat.Defs

/-!
# Parameter objects

Model of the `params` class of `params.cpp`: a parameter object is the vector `m_entries`
of (key, value) pairs, scanned front to back by the macros `CONTAINS`, `GET_VALUE`,
`SET_VALUE` and `RESET`. Keys are compared by their text whether they are given as a
`symbol` or a C string, so both overloads of every operation are one function here. A value
carries its `param_kind`; doubles are kept as their 64-bit patterns (the store never
computes with them), rationals as `ℚ`, symbols and strings as text.

AST values are left out. `set_expr`, `set_func_decl` and `set_sort` go through
`SET_AST_VALUE`, which calls `m_manager->inc_ref` before it stores, and `m_manager` is null
until `set_manager` is called; a fresh object would dereference it. Nothing the inliner runs
calls those setters or `set_manager`, so values are the kinds the other setters store, and the
getters of the AST kinds always find nothing.
-/

namespace RuleInliner.Params

/-- The kinds of parameter values (`param_kind`, without `CPK_INVALID`). -/
inductive Kind where
  | bool | uint | double | string | symbol | numeral | expr | funcDecl | sort
  deriving DecidableEq, Repr

/-- A parameter value with its kind (`params::value`), AST values left out. -/
inductive Value where
  | bool (b : Bool)
  | uint (v : UInt32)
  | double (bits : UInt64)
  | string (s : String)
  | symbol (s : String)
  | numeral (q : ℚ)
  deriving DecidableEq, Repr

/-- The kind tag of a value (`value::m_kind`). -/
def Value.kind : Value → Kind
  | .bool _ => .bool
  | .uint _ => .uint
  | .double _ => .double
  | .string _ => .string
  | .symbol _ => .symbol
  | .numeral _ => .numeral

/-- An entry of `m_entries`. -/
abbrev Entry := String × Value

/-- A parameter object: its entries in order (`params::m_entries`). -/
structure Obj where
  entries : List Entry
  deriving DecidableEq, Repr

namespace Obj

/-- The empty parameter object (`params::params()`). -/
def empty : Obj := ⟨[]⟩

/-- `params::contains` (macro `CONTAINS`): some entry has key `k`. -/
def contains (o : Obj) (k : String) : Bool := o.entries.any (·.1 = k)

/-- The value of the first entry with key `k` and kind `kind` (macro `GET_VALUE`). -/
def getValue (o : Obj) (k : String) (kind : Kind) : Option Value :=
  (o.entries.find? fun e => e.1 = k && e.2.kind = kind).map (·.2)

/-- `params::get_bool`. -/
def getBool (o : Obj) (k : String) (d : Bool) : Bool :=
  match o.getValue k .bool with
  | some (.bool b) => b
  | _ => d

/-- `params::get_uint`. -/
def getUint (o : Obj) (k : String) (d : UInt32) : UInt32 :=
  match o.getValue k .uint with
  | some (.uint v) => v
  | _ => d

/-- `static_cast<int>` of an `unsigned`: the same 32 bits read in two's complement. -/
def intCast (v : UInt32) : Int := (v.toNat : Int).bmod (Nat.pow 2 32)

/-- `params::get_rat`: the first entry with key `k` that is a numeral, or an unsigned read
through `static_cast<int>`. -/
def getRat (o : Obj) (k : String) (d : ℚ) : ℚ :=
  match o.entries.find? (fun e => e.1 = k && (e.2.kind = .numeral || e.2.kind = .uint)) with
  | some (_, .numeral q) => q
  | some (_, .uint v) => intCast v
  | _ => d

/-- Overwrite the first entry with key `k`, or append one (macro `SET_VALUE`). -/
def setEntry (k : String) (v : Value) : List Entry → List Entry
  | [] => [(k, v)]
  | e :: es => if e.1 = k then (k, v) :: es else e :: setEntry k v es

/-- The setters `set_bool`, `set_uint`, `set_double`, `set_str`, `set_rat` and `set_sym`
(macros `SET_SIMPLE_VALUE`, `SET_RAT_VALUE`, `SET_SYM_VALUE`): all store `v` under `k` through
`SET_VALUE`. -/
def set (o : Obj) (k : String) (v : Value) : Obj := ⟨setEntry k v o.entries⟩

/-- Remove the first entry with key `k`, shifting the rest down (macro `RESET`). -/
def eraseKey (k : String) : List Entry → List Entry
  | [] => []
  | e :: es => if e.1 = k then es else e :: eraseKey k es

/-- `params::reset(k)`. -/
def resetKey (o : Obj) (k : String) : Obj := ⟨eraseKey k o.entries⟩

/-- `params::reset()`: drop every entry. -/
def reset (_ : Obj) : Obj := empty

end Obj

end RuleInliner.Params
