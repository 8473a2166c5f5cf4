import DeviceForge.Code
/-!
# Patterns

A pattern is a short sequence of elements that a window of tokens has to match one after the other:
a token with a given text, an identifier, a number, either of them, or a run of tokens with balanced
brackets.
-/

namespace DeviceForge

/-- What a single captured token may be. -/
inductive Pattern.Class where
  | identifier
  | number
  | atom
  deriving DecidableEq, Repr

inductive Pattern.Element where
  | literal (text : String)
  | single (cls : Pattern.Class) (name : String)
  | run (name : String)
  deriving DecidableEq, Repr

structure Pattern where
  elements : List Pattern.Element
  deriving DecidableEq, Repr

/-- The tokens that a name stands for, and how many tokens of the match precede them. -/
structure Capture where
  skipped : Nat
  tokens : List Token
  deriving DecidableEq, Repr

def Capture.text (c : Capture) : String :=
  Code.span c.tokens

/-- A window of tokens that a pattern matches, between the tokens before it (nearest first) and those
after it. -/
structure Match where
  before : List Token
  window : List Token
  after : List Token
  captures : List (String × Capture)
  deriving DecidableEq, Repr

namespace Match

def capture? (m : Match) (name : String) : Option Capture :=
  m.captures.lookup name

def text (m : Match) (name : String) : String :=
  match m.capture? name with
  | some c => c.text
  | none => ""

def first (m : Match) : Nat :=
  m.before.length

def last (m : Match) : Nat :=
  m.before.length + m.window.length

def startOf (m : Match) (i : Nat) : Nat :=
  Code.width m.before + Code.width (m.window.take i) +
    ((m.window[i]?).elim 0 (·.lead.utf8ByteSize))

def start (m : Match) : Nat :=
  m.startOf 0

def stop (m : Match) : Nat :=
  Code.width m.before + Code.width m.window

def spanOf (m : Match) (c : Capture) : Nat × Nat :=
  (m.startOf c.skipped, Code.width m.before + Code.width (m.window.take (c.skipped + c.tokens.length)))

def isMember (m : Match) : Bool :=
  followsMember m.before

end Match

namespace Pattern

/-! ## Reading -/

def Element.ofWord (word : String) : Element :=
  match word.toList with
  | '.' :: '.' :: '.' :: c :: cs => .run (String.ofList (c :: cs))
  | '$' :: c :: cs => .single .identifier (String.ofList (c :: cs))
  | '#' :: c :: cs => .single .number (String.ofList (c :: cs))
  | '@' :: c :: cs => .single .atom (String.ofList (c :: cs))
  | _ => .literal word

/-- The pattern whose elements are the words of a text: `$name` an identifier, `#name` a number, `@name`
either of them, `...name` a run, and any other word a token with this text. -/
def ofString (s : String) : Pattern :=
  ⟨(Text.words s).map Element.ofWord⟩

/-! ## Matching -/

/-- The number of tokens of a non-empty run. It ends before `stop` at depth zero, or, where nothing stops
it, before a bracket that closes more than the run opened or at the end; no semicolon stands in it at
depth zero. -/
def runLength (stop : Option String) (depth : Nat) (started : Bool) : List Token → Option Nat
  | [] => if stop.isNone && started && depth == 0 then some 0 else none
  | t :: ts =>
    if depth == 0 && started && stop == some t.text then some 0
    else if depth == 0 && t.text == ";" then none
    else if t.isOpening then (runLength stop (depth + 1) true ts).map (· + 1)
    else if t.isClosing then
      if depth == 0 then if stop.isNone && started then some 0 else none
      else (runLength stop (depth - 1) true ts).map (· + 1)
    else (runLength stop depth true ts).map (· + 1)

def stopOf : List Element → Option String
  | .literal text :: _ => some text
  | _ => none

def bind (captures : List (String × Capture)) (name : String) (c : Capture) :
    Option (List (String × Capture)) :=
  match captures.lookup name with
  | some old => if Text.squash old.text = Text.squash c.text then some captures else none
  | none => some (captures ++ [(name, c)])

def Class.accepts : Class → Token.Kind → Bool
  | .identifier, kind => kind = .identifier
  | .number, kind => kind = .number
  | .atom, kind => kind = .identifier || kind = .number

/-- Matches elements one after the other; `n` tokens have been matched before. Gives how many are matched
then, with the captures. -/
def matchElements : List Element → Nat → List Token → List (String × Capture) →
    Option (Nat × List (String × Capture))
  | [], n, _, captures => some (n, captures)
  | .run name :: es, n, ts, captures => do
    let k ← runLength (stopOf es) 0 false ts
    let captures ← bind captures name ⟨n, ts.take k⟩
    matchElements es (n + k) (ts.drop k) captures
  | _ :: _, _, [], _ => none
  | .literal text :: es, n, t :: ts, captures =>
    if t.text = text then matchElements es (n + 1) ts captures else none
  | .single cls name :: es, n, t :: ts, captures =>
    if cls.accepts t.kind then do
      let captures ← bind captures name ⟨n, [t]⟩
      matchElements es (n + 1) ts captures
    else none

def matchAt? (p : Pattern) (before rest : List Token) : Option Match :=
  if rest.isEmpty || p.elements.isEmpty then none
  else
    (matchElements p.elements 0 rest []).map fun (n, captures) =>
      ⟨before, rest.take n, rest.drop n, captures⟩

def matchAll? (p : Pattern) (ts : List Token) : Option Match :=
  (p.matchAt? [] ts).filter (·.after.isEmpty)

def find? (p : Pattern) (before : List Token) : List Token → Option Match
  | [] => none
  | t :: ts =>
    match p.matchAt? before (t :: ts) with
    | some m => some m
    | none => find? p (t :: before) ts

def findFrom? (p : Pattern) (n : Nat) (ts : List Token) : Option Match :=
  p.find? (ts.take n).reverse (ts.drop n)

def findAllFrom (p : Pattern) (skip : Nat) (before : List Token) : List Token → List Match
  | [] => []
  | t :: ts =>
    match skip with
    | skip + 1 => findAllFrom p skip (t :: before) ts
    | 0 =>
      match p.matchAt? before (t :: ts) with
      | some m => m :: findAllFrom p (m.window.length - 1) (t :: before) ts
      | none => findAllFrom p 0 (t :: before) ts

def findAll (p : Pattern) (ts : List Token) : List Match :=
  p.findAllFrom 0 [] ts

def occursIn (p : Pattern) (s : String) : Bool :=
  (p.find? [] (Code.ofString s).tokens).isSome

/-! ## Replacing matches -/

/-- The pieces of text after replacing. The rule sees each match with a state of its own and may leave it
alone, and the search goes on at the next token then; `skip` tokens have been replaced already. -/
def replacePieces {σ : Type} (p : Pattern) (rule : σ → Match → σ × Option String) (state : σ) (skip : Nat)
    (before : List Token) : List Token → σ × List String
  | [] => (state, [])
  | t :: ts =>
    match skip with
    | skip + 1 => replacePieces p rule state skip (t :: before) ts
    | 0 =>
      match p.matchAt? before (t :: ts) with
      | none =>
        let (state, pieces) := replacePieces p rule state 0 (t :: before) ts
        (state, t.lead :: t.text :: pieces)
      | some m =>
        match rule state m with
        | (state, none) =>
          let (state, pieces) := replacePieces p rule state 0 (t :: before) ts
          (state, t.lead :: t.text :: pieces)
        | (state, some new) =>
          let (state, pieces) := replacePieces p rule state (m.window.length - 1) (t :: before) ts
          (state, t.lead :: new :: pieces)

def replaceWith {σ : Type} (p : Pattern) (rule : σ → Match → σ × Option String) (state : σ) (s : String) :
    σ × String :=
  let c := Code.ofString s
  let (state, pieces) := p.replacePieces rule state 0 [] c.tokens
  (state, String.join pieces ++ c.tail)

def replace (p : Pattern) (rule : Match → Option String) (s : String) : String :=
  (p.replaceWith (fun _ m => ((), rule m)) () s).2

end Pattern

def renameWord (name new : String) (skipMembers : Bool) (s : String) : String :=
  (Pattern.ofString name).replace (fun m => if skipMembers && m.isMember then none else some new) s

end DeviceForge
