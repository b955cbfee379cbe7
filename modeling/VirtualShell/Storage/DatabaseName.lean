import VirtualShell.Storage.Basic
import VirtualShell.Text.Blank
import VirtualShell.Text.Digit

/-!
Names of databases. A name that starts with `file:` is a URI: escapes in it stand for bytes, and its options
say how the database is opened. Any other name is that of a file. Bytes are written as the characters of
their numbers.
-/
namespace VirtualShell

/-- What a database is opened for. -/
inductive Access where
  | reading
  | writing
  /-- It may also be made. -/
  | making
  /-- It is kept in memory, whatever its name. -/
  | memory
  deriving DecidableEq, Repr

namespace Access

def ofName? (name : String) : Option Access :=
  match name with
  | "ro" => some .reading
  | "rw" => some .writing
  | "rwc" => some .making
  | "memory" => some .memory
  | _ => none

/-- How much a database may be opened for; memory is never too much to ask, and leaves room for all. -/
def rank : Access → Nat
  | .reading => 1
  | .writing => 2
  | .making => 3
  | .memory => 4

/-- Whether an option may change the access that an earlier one left. -/
def mayBecome (before after : Access) : Bool := after == .memory || after.rank ≤ before.rank

end Access

structure DatabaseName where
  text : String
  /-- The bytes of the name of the file; none for a database that no other store can open. -/
  file : Option (List Char)
  access : Access
  /-- Whether the database cannot be changed. -/
  frozen : Bool
  /-- A file whose permissions are wanted for the database. -/
  likeFile : Option (List Char)
  deriving DecidableEq, Repr

namespace DatabaseName

/-- The name of a database held in memory. -/
def inMemory : String := ":memory:"

def bytesOf (text : String) : List Char := text.toUTF8.toList.map fun byte => Char.ofNat byte.toNat

/-- The text of some bytes; what is no text is marked by a character that no name holds. -/
def textOf (bytes : List Char) : String :=
  (String.fromUTF8? ⟨(bytes.map fun c => c.toNat.toUInt8).toArray⟩).getD (.ofList ('\x00' :: bytes))

/-- A part of a URI up to a sign that ends it; an escaped zero byte hides the rest of the part. -/
def part (ends : Char → Bool) : List Char → List Char × List Char
  | '%' :: a :: b :: rest =>
    match Text.digitValue? 16 a, Text.digitValue? 16 b with
    | some high, some low =>
      let byte := 16 * high + low
      if byte = 0 then ([], rest.dropWhile fun c => !ends c)
      else
        let (taken, rest) := part ends rest
        (Char.ofNat byte :: taken, rest)
    | _, _ =>
      let (taken, rest) := part ends (a :: b :: rest)
      ('%' :: taken, rest)
  | c :: rest =>
    if ends c then ([], c :: rest)
    else
      let (taken, rest) := part ends rest
      (c :: taken, rest)
  | [] => ([], [])

/-- The options behind a question mark; one without a name is passed over. -/
def options : Nat → List Char → List (String × List Char)
  | 0, _ => []
  | fuel + 1, s =>
    let (name, rest) := part (fun c => c = '&' || c = '=') s
    let given (value : List Char) (rest : List Char) : List (String × List Char) :=
      if name.isEmpty then options fuel rest else (.ofList name, value) :: options fuel rest
    match rest with
    | [] => given [] []
    | '=' :: rest =>
      if name.isEmpty then options fuel ((rest.dropWhile (· ≠ '&')).drop 1)
      else
        let (value, rest) := part (· = '&') rest
        given value (rest.drop 1)
    | _ :: rest => given [] rest

/-- A number at the start of a text; it counts as zero when it does not fit 31 bits. -/
def leadingNumber (s : List Char) : Nat :=
  let digits (base : Nat) (s : List Char) : Nat :=
    (Text.number? base (s.takeWhile fun c => (Text.digitValue? base c).isSome)).getD 0
  let n := match s with
    | '0' :: x :: rest => if x = 'x' || x = 'X' then digits 16 rest else digits 10 s
    | s => digits 10 s
  if n < 1 <<< 31 then n else 0

/-- Whether the value of an option means yes. Of a number only the lowest eight bits count. -/
def isYes (value : List Char) : Bool :=
  if value.head?.any Char.isDigit then leadingNumber value % 256 ≠ 0
  else ["on", "yes", "true"].contains (String.ofList (Text.lowerAscii value))

def refuse {α : Type} (problem : String) : Except StorageError α := .error (.database problem)

/-- The ways of reaching files that an option may ask for; the last of them reaches none. -/
def filers : List String := ["unix", "unix-excl", "unix-dotfile", "unix-none", "memdb"]

/-- Reads an option into the access and the way of reaching files. -/
def choose (state : Access × String) (option : String × List Char) :
    Except StorageError (Access × String) :=
  let (access, filer) := state
  let value := String.ofList option.2
  if option.1 = "vfs" then .ok (access, value)
  else if option.1 = "cache" then
    if value = "shared" || value = "private" then .ok state else refuse s!"no such cache mode: {value}"
  else if option.1 = "mode" then
    match Access.ofName? value with
    | none => refuse s!"no such access mode: {value}"
    | some wanted =>
      if access.mayBecome wanted then .ok (wanted, filer)
      else refuse s!"access mode not allowed: {value}"
  else .ok state

/-- What follows the authority of a URI, which may only be this machine. -/
def afterAuthority : List Char → Except StorageError (List Char)
  | '/' :: '/' :: rest =>
    let authority := rest.takeWhile (· ≠ '/')
    if authority.isEmpty || authority = "localhost".toList then .ok (rest.drop authority.length)
    else refuse "invalid uri authority"
  | rest => .ok rest

/-- The name that stands in a URI, behind its scheme. -/
def ofUri (text : String) (uri : List Char) : Except StorageError DatabaseName := do
  let uri := (← afterAuthority uri).takeWhile (· ≠ '#')
  let (file, rest) := part (· = '?') uri
  let options := options (rest.length + 1) (rest.drop 1)
  let (access, filer) ← options.foldlM choose (.making, "unix")
  if !filers.contains filer then refuse s!"no such vfs: {filer}"
  let isNamed := !file.isEmpty && String.ofList file ≠ inMemory && access ≠ .memory
  return {
    text
    file := if isNamed && filer ≠ "memdb" then some file else none
    access
    frozen := access = .reading || (isNamed && (options.lookup "immutable").any isYes)
    likeFile := options.lookup "modeof" }

/-- A name as it is given; without one, a database is held in a file that nobody else knows. -/
def ofText (text : String) : Except StorageError DatabaseName :=
  if text.toList.contains '\x00' then refuse "nul byte found in provided data"
  else match bytesOf text with
    | 'f' :: 'i' :: 'l' :: 'e' :: ':' :: uri => ofUri text uri
    | bytes =>
      .ok ⟨text, if text = inMemory || text.isEmpty then none else some bytes, .making, false, none⟩

end DatabaseName
end VirtualShell
