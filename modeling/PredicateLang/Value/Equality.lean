import PredicateLang.Value.Basic

/-!
# Equality of values

`Value.equals` is the equality of the language: values of different types differ, numbers
compare by value whatever their representation, and arrays and objects compare element by
element. `Value.same` is finer and tells an integer from a double; `same` values are equal.

Neither is reflexive, since a NaN differs from itself.
-/

namespace PredicateLang

namespace Value

mutual

def equals : Value → Value → Bool
  | .undefined, .undefined => true
  | .null, .null => true
  | .boolean a, .boolean b => a == b
  | .number a, .number b => a.equals b
  | .string a, .string b => a == b
  | .array as, .array bs => equalItems as bs
  | .object ms, .object ns => equalMembers ms ns
  | _, _ => false

def equalItems : List Value → List Value → Bool
  | [], [] => true
  | a :: as, b :: bs => a.equals b && equalItems as bs
  | _, _ => false

def equalMembers : {low high : Option String} → Entries Value low → Entries Value high → Bool
  | _, _, .nil, .nil => true
  | _, _, .cons k a _ ms, .cons l b _ ns => k == l && (a.equals b && equalMembers ms ns)
  | _, _, _, _ => false

end

mutual

def same : Value → Value → Bool
  | .undefined, .undefined => true
  | .null, .null => true
  | .boolean a, .boolean b => a == b
  | .number a, .number b => a.same b
  | .string a, .string b => a == b
  | .array as, .array bs => sameItems as bs
  | .object ms, .object ns => sameMembers ms ns
  | _, _ => false

def sameItems : List Value → List Value → Bool
  | [], [] => true
  | a :: as, b :: bs => a.same b && sameItems as bs
  | _, _ => false

def sameMembers : {low high : Option String} → Entries Value low → Entries Value high → Bool
  | _, _, .nil, .nil => true
  | _, _, .cons k a _ ms, .cons l b _ ns => k == l && (a.same b && sameMembers ms ns)
  | _, _, _, _ => false

end

end Value

end PredicateLang
