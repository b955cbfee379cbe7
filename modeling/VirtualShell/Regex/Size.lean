import VirtualShell.Regex.Basic

/-!
How deeply an expression is nested and how many bytes its automaton takes. The automaton has a state for
each character, class and test, and holds every repeated part as often as it is repeated.
-/
namespace VirtualShell.Regex

mutual

/-- How many parts contain each other. -/
def nesting : Regex → Nat
  | .empty => 0
  | .char _ => 0
  | .chars _ => 0
  | .look _ => 0
  | .group _ _ sub => nesting sub + 1
  | .concat parts => nestingOf parts
  | .alternatives parts => nestingOf parts
  | .times sub _ _ => nesting sub + 1

/-- One more than the deepest nesting of several parts. -/
def nestingOf : List Regex → Nat
  | [] => 0
  | part :: rest => max (nesting part + 1) (nestingOf rest)

end

mutual

/-- Whether an expression may match without a character; tests count as passed. -/
def matchesEmpty : Regex → Bool
  | .empty => true
  | .char _ => false
  | .chars _ => false
  | .look _ => true
  | .group _ _ sub => matchesEmpty sub
  | .concat parts => allMatchEmpty parts
  | .alternatives parts => anyMatchesEmpty parts
  | .times sub least _ => least = 0 || matchesEmpty sub

def allMatchEmpty : List Regex → Bool
  | [] => true
  | part :: rest => matchesEmpty part && allMatchEmpty rest

def anyMatchesEmpty : List Regex → Bool
  | [] => false
  | part :: rest => matchesEmpty part || anyMatchesEmpty rest

end

def stateBytes : Nat := 32

/-- A state with two ways out. -/
def forkBytes : Nat := stateBytes + 8

mutual

/-- The bytes of the states of an expression. -/
def bytes : Regex → Nat
  | .empty => stateBytes
  | .char _ => stateBytes
  | .chars ranges => stateBytes + 8 * ranges.length
  | .look _ => stateBytes
  | .group _ _ sub => 2 * stateBytes + bytes sub
  | .concat parts => bytesOf parts
  | .alternatives parts => bytesOf parts + 2 * stateBytes + 4 * parts.length
  | .times sub least none =>
    if least = 0 && matchesEmpty sub then bytes sub + 2 * forkBytes + stateBytes
    else max 1 least * bytes sub + forkBytes
  | .times sub least (some most) =>
    if most = least then least * bytes sub
    else if least = 0 && most = 1 then bytes sub + forkBytes + stateBytes
    else (if least = 0 then stateBytes else least * bytes sub) + stateBytes +
      (most - least) * (bytes sub + forkBytes)

def bytesOf : List Regex → Nat
  | [] => 0
  | part :: rest => bytes part + bytesOf rest

end

mutual

/-- The groups of an expression with their names. -/
def groups : Regex → List (Nat × Option (List Char))
  | .empty => []
  | .char _ => []
  | .chars _ => []
  | .look _ => []
  | .group index name sub => (index, name) :: groups sub
  | .concat parts => groupsOf parts
  | .alternatives parts => groupsOf parts
  | .times sub _ _ => groups sub

def groupsOf : List Regex → List (Nat × Option (List Char))
  | [] => []
  | part :: rest => groups part ++ groupsOf rest

end

/-- The bytes that the groups take besides their states: a slot up to the last one, and their names. -/
def groupBytes (regex : Regex) : Nat :=
  let found := groups regex
  16 * (1 + (found.map (·.1)).foldl max 0) +
    found.foldr (fun group bytes => match group.2 with
      | some name => (String.ofList name).utf8ByteSize + 4 + bytes
      | none => bytes) 0

/-- The bytes of the whole automaton, which also has states around the match and one at its end. -/
def size (regex : Regex) : Nat := 3 * stateBytes + bytes regex + groupBytes regex

end VirtualShell.Regex
