import Mathlib.Data.Finset.Card
import NFdl.Lib.Postorder
import NFdl.Lib.Text
import NFdl.Syntax.Diagnostics
import Mathlib.Algebra.GroupWithZero.Nat

/-!
# Includes

A file of rules begins with the files that it includes. Loading a file expands the files
depth first, every one of them once, and puts their rules in front of its own rules. The
file system and the parser of rulesets are parameters.
-/

namespace Adgl.Include

open Diag (Span)
open Text (byteLength)

/-! ### Texts by bytes -/

/-- The characters of the first bytes of a text. -/
def takeBytes : ℕ → List Char → List Char
  | _, [] => []
  | n, c :: cs => if c.utf8Size ≤ n then c :: takeBytes (n - c.utf8Size) cs else []

def dropBytes (n : ℕ) (cs : List Char) : List Char := cs.drop (takeBytes n cs).length

/-- The text between two bytes. -/
def slice (cs : List Char) (span : Span) : List Char :=
  takeBytes (span.stop - span.start) (dropBytes span.start cs)

/-- A byte of the text at which a character begins, or the end of the text. -/
def AtBoundary (cs : List Char) (n : ℕ) : Prop := byteLength (takeBytes n cs) = n

instance (cs : List Char) (n : ℕ) : Decidable (AtBoundary cs n) :=
  inferInstanceAs (Decidable (_ = _))

theorem takeBytes_isPrefixed (n : ℕ) (cs : List Char) : takeBytes n cs <+: cs := by
  induction cs generalizing n with
  | nil => exact List.prefix_rfl
  | cons c cs ih =>
      unfold takeBytes
      split
      · exact (List.prefix_cons_inj c).mpr (ih _)
      · exact List.nil_prefix

@[simp] theorem takeBytes_append_dropBytes (n : ℕ) (cs : List Char) :
    takeBytes n cs ++ dropBytes n cs = cs :=
  (List.prefix_append_drop (takeBytes_isPrefixed n cs)).symm

/-! ### The surroundings -/

/-- What the loader uses of the file system. There are finitely many files. -/
structure FileSystem (Path : Type) where
  canonicalize : Path → Except String Path
  readToString : Path → Except String (List Char)
  parent : Path → Path
  join : Path → List Char → Path
  display : Path → String
  fileName : Path → Option String
  files : Finset Path
  mem_files : ∀ path canon, canonicalize path = .ok canon → canon ∈ files

/-- What the loader uses of a parsed ruleset: where its rules are and where it ends. The
rules begin and end between characters, and the ruleset ends with a brace. -/
structure ParsedRuleset (body : List Char) where
  rules : List Span
  span : Span
  boundary : ∀ rule ∈ rules, AtBoundary body rule.start ∧ AtBoundary body rule.stop
  closing : 0 < span.stop ∧ (dropBytes (span.stop - 1) body).head? = some '}' ∧
    AtBoundary body (span.stop - 1)

abbrev Parser : Type := (body : List Char) → Except (List Diag.Diagnostic) (ParsedRuleset body)

/-- Diagnostics, or that the bound on the depth was too low. -/
inductive Failure where
  | diags (ds : List Diag.Diagnostic)
  | tooDeep

/-! ### Directives -/

structure IncludeDir where
  path : List Char
  span : Span
deriving DecidableEq

/-- Where the scan of a comment is. A block comment remembers the text from its start. -/
inductive Scan where
  | blank
  | line
  | block (start : List Char)

/-- Skip whitespace and comments. The error is the text from an unclosed comment on. -/
def skipWsAndComments : Scan → List Char → Except (List Char) (List Char)
  | .blank, '/' :: '/' :: rest => skipWsAndComments .line rest
  | .blank, '/' :: '*' :: rest => skipWsAndComments (.block ('/' :: '*' :: rest)) rest
  | .blank, c :: rest =>
      if c = ' ' ∨ c = '\t' ∨ c = '\r' ∨ c = '\n' then skipWsAndComments .blank rest
      else .ok (c :: rest)
  | .blank, [] => .ok []
  | .line, c :: rest => skipWsAndComments (if c = '\n' then .blank else .line) rest
  | .line, [] => .ok []
  | .block _, '*' :: '/' :: rest => skipWsAndComments .blank rest
  | .block start, _ :: rest => skipWsAndComments (.block start) rest
  | .block start, [] => .error start

def skipWsOnly (cs : List Char) : List Char :=
  cs.dropWhile fun c => c = ' ' ∨ c = '\t' ∨ c = '\r'

/-- The bytes of a character, each of them as a character of its own. -/
def bytesAsChars (c : Char) : List Char :=
  (String.utf8EncodeChar c).map fun b => Char.ofNat b.toNat

/-- The character after a backslash. -/
def escaped (readAs : Char → List Char) : Char → List Char
  | '"' => ['"']
  | '\\' => ['\\']
  | 'n' => ['\n']
  | 't' => ['\t']
  | other => readAs other

/-- The rest of a string literal with what its characters are read as, and the text after
it. The error is the text at which the literal breaks off. -/
def literalRest (readAs : Char → List Char) :
    List Char → Except (List Char) (List Char × List Char)
  | '"' :: rest => .ok ([], rest)
  | ['\\'] => .error []
  | '\\' :: c :: rest => (literalRest readAs rest).map fun r => (escaped readAs c ++ r.1, r.2)
  | c :: rest =>
      if c = '\n' ∨ c = '\r' then .error (c :: rest)
      else (literalRest readAs rest).map fun r => (readAs c ++ r.1, r.2)
  | [] => .error []

/-- The byte of the source at which a suffix of it begins. -/
def offset (src rest : List Char) : ℕ := byteLength src - byteLength rest

def parseStringLit (readAs : Char → List Char) (src cs : List Char) :
    Except Span (List Char × List Char) :=
  match cs with
  | '"' :: rest =>
      match literalRest readAs rest with
      | .ok r => .ok r
      | .error stop => .error (.new (offset src cs) (offset src stop))
  | _ => .error (.new (offset src cs) (min (offset src cs) (byteLength src)))

def malformedInclude (file message : String) (span : Span) : Failure :=
  .diags [.error "ADGL4002" (message ++ " (" ++ file ++ ")") span]

def isIdentCont (c : Char) : Bool := c.isAlphanum || c = '_'

/-- Read the directives at the start of a text, at most as many as the bound says. -/
def leadingIncludes (readAs : Char → List Char) (file : String) (src : List Char) :
    ℕ → List Char → List IncludeDir → Except Failure (List IncludeDir × List Char)
  | 0, _, _ => .error .tooDeep
  | bound + 1, cs, includes =>
      match skipWsAndComments .blank cs with
      | .error start => .error (.diags [.error "ADGL0106"
          ("unclosed block comment while scanning includes in " ++ file)
          (.new (offset src start) (byteLength src))])
      | .ok cs =>
          match cs with
          | 'i' :: 'n' :: 'c' :: 'l' :: 'u' :: 'd' :: 'e' :: rest =>
              -- An identifier that merely begins with the keyword loses its beginning.
              if (rest.head?.map isIdentCont).getD false then .ok (includes, rest)
              else
                match parseStringLit readAs src (skipWsOnly rest) with
                | .error span => .error (malformedInclude file
                    "expected string literal path after `include`" span)
                | .ok (path, next) =>
                    let after := skipWsOnly next
                    if (after.head?.map fun c => decide (c ≠ '\n' ∧ c ≠ '/')).getD false then
                      .error (malformedInclude file
                        "unexpected tokens after `include \"…\"` (directive must end at line break)"
                        (.new (offset src after) (min (offset src after + 1) (byteLength src))))
                    else
                      leadingIncludes readAs file src bound after
                        (includes ++ [⟨path, .new (offset src cs) (offset src next)⟩])
          | cs => .ok (includes, cs)

/-- The directives at the start of a file and the text after them. -/
def stripLeadingIncludes (readAs : Char → List Char) (src : List Char) (file : String) :
    Except Failure (List IncludeDir × List Char) :=
  leadingIncludes readAs file src (src.length + 1) src []

/-! ### Expansion -/

section Loading

variable {Path : Type} [DecidableEq Path] (fs : FileSystem Path) (parse : Parser)

/-- The rules of a ruleset, each on lines of its own. -/
def rulesTextFromBody (body : List Char) : Except Failure (List Char) :=
  match parse body with
  | .error ds => .error (.diags ds)
  | .ok ast => ast.rules.foldlM (fun out span =>
      if byteLength body < span.stop ∨ span.stop < span.start then
        .error (.diags [.error "ADGL4003"
          "internal error: rule span out of bounds while expanding include" .unknown])
      else .ok (out ++ Text.trim (slice body span) ++ ['\n'])) []

/-- The byte of the entry at which the imported rules go in. -/
def insertAt (body : List Char) (ast : ParsedRuleset body) : Except Failure ℕ :=
  match ast.rules with
  | rule :: _ => .ok rule.start
  | [] =>
      if ast.span.stop = 0 then
        .error (.diags [.error "ADGL4003"
          "internal error: empty ruleset span while composing includes" .unknown])
      else
        let close := ast.span.stop - 1
        if (dropBytes close body).head? = some '}' ∧ AtBoundary body close then .ok close
        else
          .error (.diags [.error "ADGL4003"
            "internal error: ruleset span does not end at '\x7d' while composing includes"
            (.new close (min (close + 1) (byteLength body)))])

/-- Put a line break at the end, unless there is one. -/
def endLine (cs : List Char) : List Char :=
  if cs.getLast? = some '\n' then cs else cs ++ ['\n']

def composeEntry (body imported : List Char) : Except Failure (List Char) :=
  if imported = [] then .ok body
  else
    match parse body with
    | .error ds => .error (.diags ds)
    | .ok ast => (insertAt body ast).map fun at_ =>
        endLine (endLine (takeBytes at_ body) ++ imported) ++ dropBytes at_ body

structure ExpandedFile where
  body : List Char
  importedRulesText : List Char
  emitOwnRules : Bool

/-- The files on the way to the one that is expanded, the files that were visited, and the
files that were expanded. -/
structure Traversal (Path : Type) where
  stack : List Path
  files : List Path
  expandedOnce : List Path

def ioDiagnostic (message : String) (span : Span) : Failure :=
  .diags [.error "ADGL4001" message span]

def canonicalizeExisting (path : Path) (span : Span) : Except Failure Path :=
  match fs.canonicalize path with
  | .ok canon => .ok canon
  | .error e => .error (ioDiagnostic
      ("cannot open include path `" ++ fs.display path ++ "`: " ++ e) span)

def displayName (path : Path) : String := (fs.fileName path).getD (fs.display path)

def cycleDiagnostic (stack : List Path) (cycleFrom : ℕ) (again : Path) : Failure :=
  let chain := (stack.drop cycleFrom).map (displayName fs) ++ [displayName fs again]
  .diags [.error "ADGL4000" ("include cycle detected: " ++ String.intercalate " -> " chain) .unknown]

/-- Read a file and split its directives off. -/
def readFile (readAs : Char → List Char) (path canon : Path) (span : Span) :
    Except Failure (List IncludeDir × List Char) :=
  match fs.readToString canon with
  | .error e => .error (ioDiagnostic
      ("failed to read ADGL file `" ++ fs.display path ++ "`: " ++ e) span)
  | .ok raw => stripLeadingIncludes readAs raw (fs.display canon)

/-- Put a line break after imported rules that end without one. -/
def glue (imported : List Char) : List Char :=
  if imported ≠ [] ∧ imported.getLast? ≠ some '\n' then imported ++ ['\n'] else imported

/-- Expand one include after others. -/
def expandInclude (expand : Path → Span → Traversal Path → Except Failure (ExpandedFile × Traversal Path))
    (parent : Path) (acc : List Char × Traversal Path) (inc : IncludeDir) :
    Except Failure (List Char × Traversal Path) :=
  match expand (fs.join parent inc.path) inc.span acc.2 with
  | .error e => .error e
  | .ok (child, t) =>
      let imported := acc.1 ++ child.importedRulesText
      if child.emitOwnRules then
        match rulesTextFromBody parse child.body with
        | .error e => .error e
        | .ok rules => .ok (glue (imported ++ rules), t)
      else .ok (imported, t)

/-- Expand a file, with the given depth of files that include one another at most. -/
def expandFile : ℕ → Path → Span → Traversal Path → Except Failure (ExpandedFile × Traversal Path)
  | 0, _, _, _ => .error .tooDeep
  | depth + 1, path, span, t =>
      match canonicalizeExisting fs path span with
      | .error e => .error e
      | .ok canon =>
          if canon ∈ t.stack then .error (cycleDiagnostic fs t.stack (t.stack.idxOf canon) canon)
          else if canon ∈ t.expandedOnce then .ok (⟨[], [], false⟩, t)
          else
            match readFile fs bytesAsChars path canon span with
            | .error e => .error e
            | .ok (includes, body) =>
                let inside : Traversal Path :=
                  ⟨t.stack ++ [canon], if canon ∈ t.files then t.files else t.files ++ [canon],
                    t.expandedOnce⟩
                match includes.foldlM (expandInclude fs parse (expandFile depth) (fs.parent canon))
                    ([], inside) with
                | .error e => .error e
                | .ok (imported, after) =>
                    .ok (⟨body, imported, true⟩, ⟨after.stack.dropLast, after.files,
                      after.expandedOnce ++ [canon]⟩)

structure LoadedRuleset (Path : Type) where
  entry : Path
  files : List Path
  source : List Char

/-- Load a file whose includes nest at most as deep as the bound. -/
def loadWithin (depth : ℕ) (path : Path) : Except Failure (LoadedRuleset Path) :=
  match expandFile fs parse depth path .unknown ⟨[], [], []⟩ with
  | .error e => .error e
  | .ok (expanded, t) =>
      (composeEntry parse expanded.body expanded.importedRulesText).map fun source =>
        ⟨t.files.head?.getD path, t.files, source⟩

/-- Load a file. No file is entered twice on the way to a file. -/
def loadRuleset (path : Path) : Except Failure (LoadedRuleset Path) :=
  loadWithin fs parse (fs.files.card + 1) path

end Loading

end Adgl.Include
