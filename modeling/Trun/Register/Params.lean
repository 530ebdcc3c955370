import Mathlib.Algebra.Order.Field.Rat
import Mathlib.Data.List.Sort
import Mathlib.Data.String.Basic
import Trun.Python.Dict

/-!
# Parameters and their values

What `get_param_values` makes of a call, and the id of a step.  How values print, and the hash
in the id, are parameters.
-/

namespace Trun.Register

/-! ## Values -/

inductive PyFloat where
  | finite (value : ℚ)
  | negativeZero
  | infinity (negative : Bool)
  /-- Not a number: `==` holds of no two of them, but containers compare identities first. -/
  | nan (object : ℕ)
  deriving DecidableEq

inductive Scalar where
  | none
  | bool (b : Bool)
  | int (n : ℤ)
  | float (x : PyFloat)
  | str (text : String)
  deriving DecidableEq

/-- What a scalar is compared by. -/
inductive Key where
  | none
  | number (value : ℚ)
  | infinity (negative : Bool)
  | nan (object : ℕ)
  | str (text : String)
  deriving DecidableEq

/-- Numbers of all types are compared by their value, and booleans are numbers. -/
def Scalar.key : Scalar → Key
  | .none => .none
  | .bool b => .number (if b then 1 else 0)
  | .int n => .number n
  | .float (.finite value) => .number value
  | .float .negativeZero => .number 0
  | .float (.infinity negative) => .infinity negative
  | .float (.nan object) => .nan object
  | .str text => .str text

inductive Value where
  | scalar (x : Scalar)
  | tuple (items : List Value)
  | list (items : List Value)

namespace Value

mutual

/-- `==`. -/
def pyEq : Value → Value → Bool
  | .scalar x, .scalar y => x.key = y.key
  | .tuple items, .tuple others => pyEqItems items others
  | .list items, .list others => pyEqItems items others
  | _, _ => false

def pyEqItems : List Value → List Value → Bool
  | [], [] => true
  | item :: items, other :: others => item.pyEq other && pyEqItems items others
  | _, _ => false

end

mutual

/-- `hash` does not raise `TypeError`. -/
def hashable : Value → Bool
  | .scalar _ => true
  | .tuple items => allHashable items
  | .list _ => false

def allHashable : List Value → Bool
  | [] => true
  | item :: items => item.hashable && allHashable items

end

def listToTuple : Value → Value
  | .list items => .tuple items
  | value => value

end Value

/-! ## Parameters -/

/-- How values print, and how ids are hashed. -/
structure Printing where
  str : Value → String
  /-- `json.dumps` of a value. -/
  dumps : Value → String
  /-- `json.dumps` of names with texts, which are sorted by name. -/
  dumpsParams : List (String × String) → String
  /-- The hexadecimal digest. -/
  md5 : String → String

inductive ParameterVisibility where
  | isPublic
  | isHidden
  | isPrivate
  deriving DecidableEq

structure Parameter where
  normalize : Value → Value
  serialize : Value → String
  positional : Bool := true
  significant : Bool := true
  visibility : ParameterVisibility := .isPublic
  /-- What `_get_value` finds on the command line, in the configuration or as the default. -/
  default : Option Value := none

section Kinds

variable (printing : Printing)

def parameter : Parameter := { normalize := id, serialize := printing.str }

/-- `FloatParameter`, which only parses differently. -/
def floatParameter : Parameter := parameter printing

end Kinds

/-! ## Calls -/

/-- A step class with its parameters in the order in which they were created. -/
structure StepClass where
  stepFamily : String
  params : List (String × Parameter)
  nodup : (params.map Prod.fst).Nodup

/-- The exceptions of `get_param_values`, without the description of the call. -/
inductive ParameterError where
  /-- `takes at most %d parameters (%d given)`. -/
  | tooMany (taken given : ℕ)
  /-- `parameter %s was already set as a positional parameter`. -/
  | duplicate (name : String)
  /-- `unknown parameter %s`. -/
  | unknown (name : String)
  /-- `requires the '%s' parameter to be set`. -/
  | missing (name : String)
  deriving DecidableEq

/-- One value for each parameter. -/
abbrev ParamValues := List (String × Value)

namespace StepClass

variable (cls : StepClass)

def param? (name : String) : Option Parameter := cls.params.lookup name

/-- The parameters that can be given by position. -/
def positionalParams : List (String × Parameter) :=
  cls.params.filter fun entry => entry.2.positional

def fillPositional (given : ℕ) : List (String × Parameter) → List Value → Dict String Value →
    Except ParameterError (Dict String Value)
  | _, [], result => .ok result
  | [], _ :: _, _ => .error (.tooMany cls.positionalParams.length given)
  | (name, param) :: params, arg :: args, result =>
      fillPositional given params args (result.set name (param.normalize arg))

def fillKeywords : List (String × Value) → Dict String Value →
    Except ParameterError (Dict String Value)
  | [], result => .ok result
  | (name, arg) :: kwargs, result =>
    if result.contains name then .error (.duplicate name)
    else
      match cls.param? name with
      | none => .error (.unknown name)
      | some param => fillKeywords kwargs (result.set name (param.normalize arg))

/-- The defaults for anything not filled in. -/
def fillDefaults : List (String × Parameter) → Dict String Value →
    Except ParameterError (Dict String Value)
  | [], result => .ok result
  | (name, param) :: params, result =>
    if result.contains name then fillDefaults params result
    else
      match param.default with
      | none => .error (.missing name)
      | some value => fillDefaults params (result.set name (param.normalize value))

def getParamValues (args : List Value) (kwargs : Dict String Value) :
    Except ParameterError ParamValues := do
  let result ← cls.fillPositional args.length cls.positionalParams args ∅
  let result ← cls.fillKeywords kwargs.entries result
  let result ← fillDefaults cls.params result
  pure (cls.params.map fun entry =>
    (entry.1, (result.getD entry.1 (.scalar .none)).listToTuple))

def toStrParams (onlySignificant onlyPublic : Bool) (values : ParamValues) :
    List (String × String) :=
  values.filterMap fun entry =>
    (cls.param? entry.1).bind fun param =>
      if (!onlySignificant || param.significant) &&
          (!onlyPublic || param.visibility = .isPublic) && param.visibility ≠ .isPrivate
      then some (entry.1, param.serialize entry.2)
      else none

/-- Every parameter with its value as a text. -/
def serialized (values : ParamValues) : List (String × String) :=
  values.map fun entry =>
    (entry.1, ((cls.param? entry.1).map fun param => param.serialize entry.2).getD "")

end StepClass

/-- `[^A-Za-z0-9_]` is replaced. -/
def replaceInvalid (text : String) : String :=
  String.ofList (text.toList.map fun c => if c.isAlphanum || c = '_' then c else '_')

def stepIdStr (printing : Printing) (stepFamily : String) (params : List (String × String)) :
    String :=
  let sorted := params.mergeSort fun param other => param.1 ≤ other.1
  let paramHash := printing.md5 (printing.dumpsParams sorted)
  let paramSummary := replaceInvalid ("_".intercalate
    ((sorted.take 3).map fun param => String.ofList (param.2.toList.take 16)))
  stepFamily ++ "_" ++ paramSummary ++ "_" ++ String.ofList (paramHash.toList.take 10)

end Trun.Register
