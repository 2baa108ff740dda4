import ClassCollapse.CanonicalKey
import ClassCollapse.Digest.Basic
import ClassCollapse.Naming.Strategy
import ClassCollapse.Random.Source

/-!
# Names for class combinations

A resolver gives each canonical key one name and no name to two keys. The body of a name is the only
word of the class list, or what the strategy suggests while the budget lasts, or a digest with a
random number. A body that would clash is set apart by a digest and, if need be, by a number.
-/

namespace ClassCollapse

/-- The names given so far and what the next names depend on. -/
structure NameResolver where
  namePrefix : String
  maxInvocations : Nat
  strategy : Option NamingStrategy
  random : RandomSource
  /-- The calls of the strategy, in order. -/
  calls : List NamingCall
  invocations : Nat
  /-- The name of each key, in the order of assignment. -/
  names : List (CanonicalKey × String)
  /-- The key that holds each name. -/
  owners : List (String × CanonicalKey)

namespace NameResolver

def new (namePrefix : String) (maxInvocations : Nat) (strategy : Option NamingStrategy)
    (random : RandomSource) : NameResolver :=
  ⟨namePrefix, maxInvocations, strategy, random, [], 0, [], []⟩

def nameFor? (r : NameResolver) (key : CanonicalKey) : Option String :=
  r.names.lookup key

/-- The name in the only word of a class list. -/
def ownName? (classList : String) : Option String :=
  let trimmed := Text.trim classList
  if trimmed.toList.any Text.isBlank then none
  else if (Naming.sanitize trimmed).isEmpty then none
  else some (Naming.sanitize trimmed)

/-- How often the strategy is asked about one key while its answers hold no name. -/
def maxAttempts : Nat := 3

/-- Asks the strategy at most `attempts` times and within the budget. A failure ends the attempts.
-/
def requestName (tag : Option String) (classList : String) :
    (attempts : Nat) → NameResolver → Option String × NameResolver
  | 0, r => (none, r)
  | attempts + 1, r =>
    match r.strategy with
    | none => (none, r)
    | some ask =>
      if r.maxInvocations ≤ r.invocations then (none, r)
      else
        let call : NamingCall := ⟨tag, classList⟩
        let asked := { r with calls := r.calls ++ [call], invocations := r.invocations + 1 }
        match ask r.calls call with
        | .error _ => (none, asked)
        | .ok answer =>
          if (Naming.sanitize answer).isEmpty then requestName tag classList attempts asked
          else (some (Naming.sanitize answer), asked)

/-- A name from the digest of the class list and a random number below 1000. -/
def fallbackName (classList : String) (r : NameResolver) : String × NameResolver :=
  let (n, random) := r.random.draw 1000
  (shortDigest classList ++ toString n, { r with random })

def resolveBody (tag : Option String) (classList : String) (r : NameResolver) :
    String × NameResolver :=
  match ownName? classList with
  | some body => (body, r)
  | none =>
    match requestName tag classList maxAttempts r with
    | (some body, r) => (body, r)
    | (none, r) => fallbackName classList r

def isFree (owners : List (String × CanonicalKey)) (key : CanonicalKey) (name : String) : Bool :=
  match owners.lookup name with
  | none => true
  | some owner => owner = key

/-- The numbered forms of a name, from two on. -/
def numbered (name : String) (i : Nat) : String :=
  name ++ "-" ++ toString (i + 2)

/-- The candidate itself, its form with a digest, or the first numbered form of that, whichever is
the first free one. Among one more numbered form than there are names, one is free. -/
def disambiguate (owners : List (String × CanonicalKey)) (candidate : String) (key : CanonicalKey)
    (classList : String) : String :=
  let hashed := candidate ++ "-" ++ shortDigest classList
  if isFree owners key candidate then candidate
  else if isFree owners key hashed then hashed
  else
    (((List.range (owners.length + 1)).find? fun i => isFree owners key (numbered hashed i)).map
      (numbered hashed)).getD hashed

/-- The name of a key, which is found at the first request. The class list and the tag are those of
the occurrence that asks. -/
def assign (key : CanonicalKey) (tag : Option String) (classList : String) (r : NameResolver) :
    String × NameResolver :=
  match r.nameFor? key with
  | some name => (name, r)
  | none =>
    let (body, r) := resolveBody tag classList r
    let name := disambiguate r.owners (r.namePrefix ++ body) key classList
    (name, { r with names := r.names ++ [(key, name)], owners := r.owners ++ [(name, key)] })

end NameResolver

end ClassCollapse
