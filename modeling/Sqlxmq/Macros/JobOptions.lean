/-! Arguments of the attribute `#[job]`, as the parser of attributes hands
them to the macro, and the options that the macro reads off them. -/
namespace Sqlxmq

namespace Syn

inductive PathArguments where
  | none
  | angleBracketed (args : String)
  | parenthesized (args : String)
deriving DecidableEq

structure PathSegment where
  ident : String
  arguments : PathArguments
deriving DecidableEq

structure Path where
  leadingColon : Bool
  segments : List PathSegment
deriving DecidableEq

/-- The identifier that is all of the path. -/
def Path.getIdent (p : Path) : Option String :=
  match p.leadingColon, p.segments with
  | false, [⟨ident, .none⟩] => some ident
  | _, _ => none

def Path.ofIdent (ident : String) : Path := ⟨false, [⟨ident, .none⟩]⟩

structure LitInt where
  negative : Bool
  magnitude : Nat
deriving DecidableEq

def LitInt.base10Digits (n : LitInt) : String :=
  (if n.negative then "-" else "") ++ toString n.magnitude

/-- `base10_parse::<u32>`. A sign is no digit. -/
def LitInt.base10ParseU32 (n : LitInt) : Except String UInt32 :=
  if n.negative then .error "invalid digit found in string"
  else if n.magnitude < UInt32.size then .ok (.ofNat n.magnitude)
  else .error "number too large to fit in target type"

structure LitFloat where
  base10Digits : String
deriving DecidableEq

inductive Lit where
  | str (value : String)
  | byteStr (value : List UInt8)
  | byte (value : UInt8)
  | char (value : Char)
  | int (value : LitInt)
  | float (value : LitFloat)
  | bool (value : Bool)
  | verbatim (tokens : String)
deriving DecidableEq

mutual

inductive Meta where
  | path (path : Path)
  | list (path : Path) (nested : List NestedMeta)
  | nameValue (path : Path) (lit : Lit)

inductive NestedMeta where
  | ofMeta (value : Meta)
  | lit (value : Lit)

end

def Meta.getPath : Meta → Path
  | .path p => p
  | .list p _ => p
  | .nameValue p _ => p

/-- A compile error, with the tokens it is reported at. -/
structure Error where
  spanned : NestedMeta
  message : String

end Syn

open Syn

/-- The type `f64`, with the number that the digits of a numeric literal
stand for. All such digits parse. -/
class Float64 where
  Value : Type
  parse : String → Value

/-- Numbers kept as their digits. -/
@[reducible] def Float64.digits : Float64 where
  Value := String
  parse := id

/-- A panic inside of the macro. -/
inductive Panic where
  | indexOutOfBounds
deriving DecidableEq

section Interpret

variable [Float64]

structure JobOptions where
  proto : Option Path
  name : Option String
  channelName : Option String
  retries : Option UInt32
  backoffSecs : Option Float64.Value
  ordered : Option Bool

/-- `JobOptions::default()` -/
def JobOptions.default : JobOptions := ⟨none, none, none, none, none, none⟩

inductive OptionValue where
  | none
  | lit (lit : Lit)
  | path (path : Path)

/-- The value given with an option. Of a list this is the first item, which
has to be a path. -/
def optionValue : Meta → Except Panic (Option OptionValue)
  | .list _ [] => .error .indexOutOfBounds
  | .list _ (.ofMeta (.path p) :: _) => .ok (some (.path p))
  | .list _ (_ :: _) => .ok Option.none
  | .path _ => .ok (some .none)
  | .nameValue _ lit => .ok (some (.lit lit))

/-- The options after an argument, and whether the argument is an error. -/
abbrev Interpreted := JobOptions × Except Syn.Error Unit

/-- The nested function `error` -/
def unexpected (options : JobOptions) (arg : NestedMeta) : Interpreted :=
  (options, .error ⟨arg, "Unexpected attribute argument"⟩)

/-- The match on the name and the value of an option. -/
def interpretOption (options : JobOptions) (arg : NestedMeta) (name : String)
    (value : OptionValue) : Interpreted :=
  match name, value with
  | "proto", .path p =>
      if options.proto.isNone then ({ options with proto := some p }, .ok ())
      else unexpected options arg
  | "name", .lit (.str s) =>
      if options.name.isNone then ({ options with name := some s }, .ok ())
      else unexpected options arg
  | "channel_name", .lit (.str s) =>
      if options.channelName.isNone then ({ options with channelName := some s }, .ok ())
      else unexpected options arg
  | "retries", .lit (.int n) =>
      if options.retries.isNone then
        match n.base10ParseU32 with
        | .ok retries => ({ options with retries := some retries }, .ok ())
        | .error message => (options, .error ⟨.lit (.int n), message⟩)
      else unexpected options arg
  | "backoff_secs", .lit (.float n) =>
      if options.backoffSecs.isNone then
        ({ options with backoffSecs := some (Float64.parse n.base10Digits) }, .ok ())
      else unexpected options arg
  | "backoff_secs", .lit (.int n) =>
      if options.backoffSecs.isNone then
        ({ options with backoffSecs := some (Float64.parse n.base10Digits) }, .ok ())
      else unexpected options arg
  | "ordered", .none =>
      if options.ordered.isNone then ({ options with ordered := some true }, .ok ())
      else unexpected options arg
  | "ordered", .lit (.bool b) =>
      if options.ordered.isNone then ({ options with ordered := some b }, .ok ())
      else unexpected options arg
  | _, _ => unexpected options arg

def interpretJobArg (options : JobOptions) (arg : NestedMeta) : Except Panic Interpreted :=
  match arg with
  | .lit (.str s) =>
      if options.name.isNone then .ok ({ options with name := some s }, .ok ())
      else .ok (unexpected options arg)
  | .ofMeta m =>
      match m.getPath.getIdent with
      | some name =>
          match optionValue m with
          | .ok (some value) => .ok (interpretOption options arg name value)
          | .ok none => .ok (unexpected options arg)
          | .error panic => .error panic
      -- there is no else branch
      | none => .ok (options, .ok ())
  | _ => .ok (unexpected options arg)

/-- The loop of the macro over its arguments, which collects the errors. -/
def interpretJobArgs (options : JobOptions) :
    List NestedMeta → Except Panic (JobOptions × List Syn.Error)
  | [] => .ok (options, [])
  | arg :: rest => do
      let (options, result) ← interpretJobArg options arg
      let (options, errors) ← interpretJobArgs options rest
      match result with
      | .ok () => .ok (options, errors)
      | .error e => .ok (options, e :: errors)

end Interpret

end Sqlxmq
