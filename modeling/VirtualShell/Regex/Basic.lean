import VirtualShell.Text.CodeRanges

/-!
Regular expressions over code points and the question whether one matches anywhere in a text. Matching
works on sets of positions: an expression takes the positions where it may start to those where it ends.
-/
namespace VirtualShell

/-- A test of the place between two characters. -/
inductive Look where
  | start
  | finish
  | lineStart
  | lineEnd
  /-- Line ends may also be a carriage return, with or without a line feed. -/
  | lineStartCrlf
  | lineEndCrlf
  | word
  | notWord
  | wordStart
  | wordEnd
  | wordStartHalf
  | wordEndHalf
  deriving DecidableEq, Repr

inductive Regex where
  | empty
  | char (c : Char)
  | chars (ranges : Text.CodeRanges)
  | look (test : Look)
  /-- A group that is counted, from one on, and may have a name. -/
  | group (index : Nat) (name : Option (List Char)) (sub : Regex)
  | concat (parts : List Regex)
  | alternatives (parts : List Regex)
  /-- At least `least` times, and at most `most` if that is set. -/
  | times (sub : Regex) (least : Nat) (most : Option Nat)
  deriving Repr, Inhabited

namespace Regex

def isWordChar (c : Char) : Bool := c.isAlphanum || c = '_'

/-- Whether a test holds between the character before a position and the one after it. -/
def Look.holds (before after : Option Char) : Look → Bool
  | .start => before.isNone
  | .finish => after.isNone
  | .lineStart => before.isNone || before == some '\n'
  | .lineEnd => after.isNone || after == some '\n'
  | .lineStartCrlf => before.isNone || before == some '\n' || (before == some '\r' && after != some '\n')
  | .lineEndCrlf => after.isNone || after == some '\r' || (after == some '\n' && before != some '\r')
  | .word => before.any isWordChar != after.any isWordChar
  | .notWord => before.any isWordChar == after.any isWordChar
  | .wordStart => !before.any isWordChar && after.any isWordChar
  | .wordEnd => before.any isWordChar && !after.any isWordChar
  | .wordStartHalf => !before.any isWordChar
  | .wordEndHalf => !after.any isWordChar

/-- The positions of a second set that are not in the first. -/
def fresh (known found : List Nat) : List Nat := found.filter fun i => !known.contains i

/-- A step taken a fixed number of times. -/
def iterate (step : List Nat → List Nat) : Nat → List Nat → List Nat
  | 0, from_ => from_
  | n + 1, from_ => if from_.isEmpty then [] else iterate step n (step from_)

/--
All that a step reaches in up to a number of rounds, next to what is reached already. Only the positions
of the last round are stepped from again.
-/
def spread (step : List Nat → List Nat) : Nat → List Nat → List Nat → List Nat
  | 0, reached, _ => reached
  | n + 1, reached, last =>
    let found := fresh reached (step last)
    if found.isEmpty then reached else spread step n (reached ++ found) found

mutual

/-- Where an expression may end when it starts at one of the given positions. -/
def ends (text : Array Char) : Regex → List Nat → List Nat
  | .empty, from_ => from_
  | .char c, from_ => (from_.filter fun i => text[i]? == some c).map (· + 1)
  | .chars ranges, from_ => (from_.filter fun i => (text[i]?).any ranges.has).map (· + 1)
  | .look test, from_ => from_.filter fun i =>
      Look.holds (if i = 0 then none else text[i - 1]?) text[i]? test
  | .group _ _ sub, from_ => ends text sub from_
  | .concat parts, from_ => endsInTurn text parts from_
  | .alternatives parts, from_ => endsOfAny text parts from_
  | .times sub least most, from_ =>
    let room := text.size + 1
    let few := iterate (fun at_ => ends text sub at_) (min least room) from_
    let more := match most with
      | some most => min (most - least) room
      | none => room
    spread (fun at_ => ends text sub at_) more few few

/-- Where expressions may end that follow each other. -/
def endsInTurn (text : Array Char) : List Regex → List Nat → List Nat
  | [], from_ => from_
  | part :: rest, from_ => endsInTurn text rest (ends text part from_)

/-- Where any of several expressions may end. -/
def endsOfAny (text : Array Char) : List Regex → List Nat → List Nat
  | [], _ => []
  | part :: rest, from_ =>
    let found := ends text part from_
    found ++ fresh found (endsOfAny text rest from_)

end

/-- Whether an expression matches somewhere in a text. -/
def isMatch (regex : Regex) (text : String) : Bool :=
  let chars := text.toList.toArray
  !(ends chars regex (List.range (chars.size + 1))).isEmpty

end Regex
end VirtualShell
