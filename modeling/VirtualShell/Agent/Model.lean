import VirtualShell.Agent.Tool

/-!
Language models, as far as a run sees them: for each request how long the answer takes, and what it is. The
mock model answers by keywords, and lists and creates files through tools.
-/
namespace VirtualShell.Agent

inductive Role where
  | system
  | user
  | assistant
  deriving DecidableEq, Repr

def Role.name : Role → String
  | .system => "system"
  | .user => "user"
  | .assistant => "assistant"

def Role.ofName? (name : String) : Option Role :=
  [Role.system, .user, .assistant].find? fun role => role.name == name

structure Message where
  role : Role
  content : String
  deriving DecidableEq, Repr

/-- What a model is asked. -/
structure Request where
  model : String
  messages : List Message
  temperature : Number.Binary64
  maxTokens : Option UInt32
  deriving DecidableEq, Repr

/-- The last message of the user. -/
def lastUserMessage? (messages : List Message) : Option String :=
  (messages.reverse.find? fun message => message.role == .user).map Message.content

inductive Answer where
  | text (text : String)
  /-- A text whose tool calls are still to be made. -/
  | calls (text : String)
  | failure (reason : String)
  deriving DecidableEq, Repr

/-- An answer and the milliseconds that it is said to take, if it has to be waited for. -/
structure Reply where
  delay : Option Nat
  answer : Answer
  deriving DecidableEq, Repr

/-- The reply to a request with some tools, told how many requests were made before. -/
abbrev Model := Nat → Request → List Tool → Reply

/-! ### The mock model -/

namespace Mock

def greetings : List String :=
  ["Hello! How can I assist you today?", "Hi there! I'm ready to help with your tasks.",
    "Greetings! What would you like me to do?"]

def abilities : String :=
  "I'm an AI agent that can:\n- Execute shell commands\n- Process and analyze text\n" ++
  "- Help with various tasks\nTry asking me to list files, create files, or analyze data!"

/-- What the mock model finds in a message. -/
def analysis (message : String) : String :=
  let cs := message.toList
  let question := if cs.contains '?' then "True" else "False"
  s!"Analyzing input: '{message}'\n- Length: {cs.length} characters\n" ++
  s!"- Words: {(Text.words cs).length} words\n- Contains question: {question}\nAnalysis complete."

/-- The answer to a message: the first keyword that occurs in it decides. -/
def answer (message : String) (tools : List Tool) : Answer :=
  let lower := Text.lowerAscii message.toList
  let mentions (word : String) : Bool := Text.holds word.toList lower
  let hasTool (name : String) : Bool := tools.any fun tool => tool.name == name
  if message.isEmpty then .text "Hello! I'm an AI agent running in your shell. How can I help you?"
  else if mentions "list" && mentions "files" then
    if hasTool "ls" then .calls "Here are the files in the current directory:\nTOOL[ls]"
    else .text "I would list files here, but I don't have access to the ls command."
  else if mentions "create" && mentions "file" then
    if hasTool "touch" then .calls "I've created a file called example.txt\nTOOL[touch](example.txt)"
    else .text "I would create a file, but I don't have access to file commands."
  else if mentions "hello" then .text (greetings.getD (message.utf8ByteSize % greetings.length) "")
  else if mentions "help" then .text abilities
  else if mentions "analyze" then .text (analysis message)
  else .text s!"I understand you said: '{message}'. As a mock agent, I have limited capabilities."

/-- The mock model, which takes the same time for every answer. -/
def model (latency : Nat) : Model := fun _ request tools =>
  ⟨some latency, answer ((lastUserMessage? request.messages).getD "") tools⟩

end Mock

/-! ### Scripted models -/

/-- What a script holds about one answer. -/
structure Line where
  /-- In milliseconds; an answer without any is not waited for. -/
  delay : Nat
  /-- The model fails with this reason. -/
  failure : Option String
  /-- The last message of the user is given back. -/
  echo : Bool
  text : String
  /-- The tool calls of the answer are made. -/
  expand : Bool
  deriving DecidableEq, Repr

def Line.reply (line : Line) (request : Request) : Reply :=
  let text := if line.echo then "echo: " ++ (lastUserMessage? request.messages).getD "" else line.text
  let delay := if line.delay == 0 then none else some line.delay
  match line.failure with
  | some reason => ⟨delay, .failure reason⟩
  | none => ⟨delay, if line.expand then .calls text else .text text⟩

/-- A model that goes through a script, and stays at its last line. -/
def scripted (lines : List Line) : Model := fun n request _ =>
  match lines[min n (lines.length - 1)]? with
  | some line => line.reply request
  | none => ⟨none, .text ""⟩

end VirtualShell.Agent
