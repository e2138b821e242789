import ImageUpload.Json.Quoted
import ImageUpload.Json.Value

/-!
Documents as text, without blanks or laid out with two blanks for each level.
-/

namespace ImageUpload
namespace Json

def quote (s : String) : String :=
  String.ofList ('"' :: Quoted.encode s.toList ++ ['"'])

namespace Value

/-- A literal that denotes no text is written as one that denotes none either. -/
def stringText : Option String → String
  | some s => quote s
  | none => "\"\\ud800\""

def scalarText : Value → String
  | null => "null"
  | bool true => "true"
  | bool false => "false"
  | natural n => toString n
  | number written => written
  | string s => stringText s
  | array _ => "[]"
  | object _ => "\x7b\x7d"

mutual

def compact : Value → String
  | array items => "[" ++ String.intercalate "," (compactItems items) ++ "]"
  | object members => "\x7b" ++ String.intercalate "," (compactMembers members) ++ "\x7d"
  | v => v.scalarText

def compactItems : List Value → List String
  | [] => []
  | v :: rest => v.compact :: compactItems rest

def compactMembers : List (Option String × Value) → List String
  | [] => []
  | (name, v) :: rest => (stringText name ++ ":" ++ v.compact) :: compactMembers rest

end

def indent (level : Nat) : String :=
  String.ofList (List.replicate (2 * level) ' ')

/-- Lines between brackets, each on its own one level deeper. -/
def block (opening closing : String) (level : Nat) (lines : List String) : String :=
  if lines.isEmpty then opening ++ closing
  else
    opening ++ "\n" ++ String.intercalate ",\n" (lines.map (indent (level + 1) ++ ·)) ++ "\n" ++
      indent level ++ closing

mutual

def laidOut (level : Nat) : Value → String
  | array items => block "[" "]" level (laidOutItems (level + 1) items)
  | object members => block "\x7b" "\x7d" level (laidOutMembers (level + 1) members)
  | v => v.scalarText

def laidOutItems (level : Nat) : List Value → List String
  | [] => []
  | v :: rest => v.laidOut level :: laidOutItems level rest

def laidOutMembers (level : Nat) : List (Option String × Value) → List String
  | [] => []
  | (name, v) :: rest => (stringText name ++ ": " ++ v.laidOut level) :: laidOutMembers level rest

end

def pretty (v : Value) : String :=
  v.laidOut 0

end Value
end Json
end ImageUpload
