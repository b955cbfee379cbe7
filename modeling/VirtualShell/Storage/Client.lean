import VirtualShell.Keyed
import VirtualShell.Storage.Basic

/-!
A client of an object service: buckets of bodies under text keys. Any single request may be told to
fail, and a request that fails has no effect.
-/
namespace VirtualShell

inductive Request where
  | ensureBucket (bucket : String)
  | put (bucket key : String)
  | get (bucket key : String)
  | delete (bucket key : String)
  | list (bucket start : String)
  deriving DecidableEq, Repr

namespace Request

def name : Request → String
  | .ensureBucket _ => "ensure_bucket"
  | .put .. => "put_object"
  | .get .. => "get_object"
  | .delete .. => "delete_object"
  | .list .. => "list_objects"

/-- The key, or start of keys, that a request is about; for a bucket its name. -/
def target : Request → String
  | .ensureBucket bucket => bucket
  | .put _ key => key
  | .get _ key => key
  | .delete _ key => key
  | .list _ start => start

end Request

/-- What a listing tells of an object. -/
structure Summary where
  key : String
  /-- The length of its body in bytes. -/
  size : UInt64
  deriving DecidableEq, Repr

def Summary.of (object : String × ByteArray) : Summary := ⟨object.1, object.2.size.toUInt64⟩

structure Client where
  buckets : Keyed (Keyed ByteArray)
  /-- How many requests were made so far. -/
  requests : Nat
  /-- Whether the request of a given number fails. -/
  fails : Nat → Request → Bool

namespace Client

/-- A client without buckets whose requests all go through. -/
def new : Client := ⟨[], 0, fun _ _ => false⟩

/-- Makes a request, unless it is to fail. -/
def attempt {α : Type} (request : Request) (act : Storing Client α) : Storing Client α := do
  let client ← get
  set { client with requests := client.requests + 1 }
  if client.fails client.requests request then throw (.backend (request.name ++ " failed"))
  act

/-- The objects of a bucket. -/
def objects (bucket : String) : Storing Client (Keyed ByteArray) := do
  match Keyed.find? bucket (← get).buckets with
  | some objects => return objects
  | none => throw (.backend ("NoSuchBucket: " ++ bucket))

def store (bucket : String) (objects : Keyed ByteArray) : Storing Client Unit :=
  modify fun client => { client with buckets := Keyed.insert bucket objects client.buckets }

/-- The part of a bucket whose keys start with a text: they stand together from the first on. -/
def startingWith (start : String) (objects : Keyed ByteArray) : Keyed ByteArray :=
  (objects.dropWhile fun object => object.1 < start).takeWhile
    fun object => start.toList.isPrefixOf object.1.toList

def ensureBucket (bucket : String) : Storing Client Unit :=
  attempt (.ensureBucket bucket) do
    if (Keyed.find? bucket (← get).buckets).isNone then store bucket []

def put (bucket key : String) (body : ByteArray) : Storing Client Unit :=
  attempt (.put bucket key) do store bucket (Keyed.insert key body (← objects bucket))

def fetch (bucket key : String) : Storing Client (Option ByteArray) :=
  attempt (.get bucket key) do return Keyed.find? key (← objects bucket)

/-- Removes an object; to remove one that is not there is no error. -/
def delete (bucket key : String) : Storing Client Unit :=
  attempt (.delete bucket key) do store bucket (Keyed.erase key (← objects bucket))

/-- The objects of a bucket whose keys start with a text, in order. -/
def summaries (bucket start : String) : Storing Client (List Summary) :=
  attempt (.list bucket start) do return (startingWith start (← objects bucket)).map Summary.of

/-- The keys of a bucket that start with a text, in order. -/
def list (bucket start : String) : Storing Client (List String) :=
  return (← summaries bucket start).map Summary.key

end Client
end VirtualShell
