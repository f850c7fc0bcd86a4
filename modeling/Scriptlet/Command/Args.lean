/-! The command line. Options are read from the left; one that asks for the version or for help settles
the matter at once, unless something before it was wrong. -/
namespace Scriptlet

inductive Mode where
  | file (path : String)
  | source (text : String)
  | prompt
deriving DecidableEq, Repr

structure Options where
  mode : Mode
  showTrees : Bool
deriving DecidableEq, Repr

inductive Request where
  | start (options : Options)
  | version
  | help
deriving DecidableEq, Repr

/-- The options found so far. Asking for more words changes nothing else. -/
structure Args where
  file : Option String
  eval : Option String
  interactive : Bool
  showTrees : Bool
  verbose : Bool
deriving DecidableEq, Repr

namespace Args

def empty : Args := ⟨none, none, false, false, false⟩

/-- An option that stands alone. -/
inductive Flag where
  | interactive
  | showTrees
  | verbose
  | version
  | help
deriving DecidableEq, Repr

/-- An option with a value. -/
inductive Valued where
  | file
  | eval
deriving DecidableEq, Repr

def flag? : String → Option Flag
  | "interactive" => some .interactive
  | "print-ast" => some .showTrees
  | "verbose" => some .verbose
  | "version" => some .version
  | "help" => some .help
  | _ => none

def shortFlag? : Char → Option Flag
  | 'i' => some .interactive
  | 'v' => some .verbose
  | 'V' => some .version
  | 'h' => some .help
  | _ => none

def valued? : String → Option Valued
  | "file" => some .file
  | "eval" => some .eval
  | _ => none

def shortValued? : Char → Option Valued
  | 'f' => some .file
  | 'e' => some .eval
  | _ => none

/-- Every option may be given once, and a path is not empty. -/
def withValue (a : Args) (option : Valued) (value : String) : Option Args :=
  match option with
  | .file => if a.file.isSome || value.isEmpty then none else some { a with file := some value }
  | .eval => if a.eval.isSome then none else some { a with eval := some value }

/-- Either the options with this flag added, or the request that settles the matter. -/
def withFlag (a : Args) (flag : Flag) : Option (Args ⊕ Request) :=
  match flag with
  | .interactive => if a.interactive then none else some (.inl { a with interactive := true })
  | .showTrees => if a.showTrees then none else some (.inl { a with showTrees := true })
  | .verbose => if a.verbose then none else some (.inl { a with verbose := true })
  | .version => some (.inr .version)
  | .help => some (.inr .help)

/-- Exactly one mode has to be chosen. -/
def request? (a : Args) : Option Request :=
  match a.file, a.eval, a.interactive with
  | some path, none, false => some (.start ⟨.file path, a.showTrees⟩)
  | none, some text, false => some (.start ⟨.source text, a.showTrees⟩)
  | none, none, true => some (.start ⟨.prompt, a.showTrees⟩)
  | _, _, _ => none

/-- A word can be the value of the option before it unless it looks like an option itself. -/
def isValue : List Char → Bool
  | ['-'] => true
  | '-' :: _ => false
  | _ => true

/-- What one word of the command line does. -/
inductive Effect where
  | goOn (a : Args)
  | wants (a : Args) (option : Valued)
  | settled (r : Request)
  | wrong

def Effect.ofFlag : Option (Args ⊕ Request) → Effect
  | some (.inl a) => .goOn a
  | some (.inr r) => .settled r
  | none => .wrong

def Effect.ofArgs : Option Args → Effect
  | some a => .goOn a
  | none => .wrong

/-- Options of one letter, written together. The first that takes a value takes the rest of the word,
without an equals sign at its head. -/
def letters (a : Args) : List Char → Effect
  | [] => .goOn a
  | c :: rest =>
    match shortValued? c with
    | some option =>
      match rest with
      | [] => .wants a option
      | '=' :: value => .ofArgs (a.withValue option (String.ofList value))
      | value => .ofArgs (a.withValue option (String.ofList value))
    | none =>
      match shortFlag? c with
      | none => .wrong
      | some flag =>
        match a.withFlag flag with
        | some (.inl next) => letters next rest
        | some (.inr r) => .settled r
        | none => .wrong

/-- A long option, given the characters after its dashes. -/
def long (a : Args) (cs : List Char) : Effect :=
  let name := String.ofList (cs.takeWhile (· != '='))
  match cs.dropWhile (· != '=') with
  | _ :: value =>
    match valued? name with
    | some option => .ofArgs (a.withValue option (String.ofList value))
    | none => .wrong
  | [] =>
    match valued? name with
    | some option => .wants a option
    | none => .ofFlag ((flag? name).bind a.withFlag)

/-- One word of the command line. There are no arguments besides options, so nothing may follow two lone
dashes. -/
def word (a : Args) (last : Bool) : List Char → Effect
  | ['-', '-'] => if last then .goOn a else .wrong
  | '-' :: '-' :: cs => a.long cs
  | '-' :: c :: cs => a.letters (c :: cs)
  | _ => .wrong

def readFrom (a : Args) : List String → Option Request
  | [] => a.request?
  | first :: rest =>
    match a.word rest.isEmpty first.toList with
    | .goOn next => readFrom next rest
    | .settled r => some r
    | .wrong => none
    | .wants next option =>
      match rest with
      | [] => none
      | value :: more =>
        if isValue value.toList then
          match next.withValue option value with
          | some given => readFrom given more
          | none => none
        else none

end Args

/-- What a command line asks for; nothing if it is not a proper one. -/
def Request.ofWords (words : List String) : Option Request :=
  Args.empty.readFrom words

end Scriptlet
