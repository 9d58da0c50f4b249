import Gxl.Grammar.Member

/-!
# The grammar of documents

`Rule.document` is the rule of a whole source text.  `parse` runs it once from the start of a text;
`Reader.documents` runs it again and again on one reader, which goes on from wherever the run
before stopped.

Reference: `src/crates/core/src/parser/mod.rs` (`parse_source_file`, `parse_top_level_item`,
`parse_extern_module`, `parse_module_source`, `parse`) and `src/crates/core/src/parser/module.rs`
(`parse_module`).
-/

namespace Gxl

namespace Rule

/-- A module `mod name : refs { … }`. -/
def module (annots : List Annot) (start : Span) : Rule Module := do
  discard <| expectWord "mod"
  let name ← ident
  let refs ← refsAfter .colon
  let members ← block member
  return ⟨annots, name, refs, members, ← closing start⟩

/-- Where external modules come from: a path, or a repository and a channel
(`parse_module_source`). -/
def origin : Rule Origin := do
  let start := (← peek).span
  if ← atWord "path" then
    discard advance
    discard <| expect .equals
    let path ← string
    discard <| expect .semicolon
    return .path path (← spanFrom start)
  else if ← atWord "git" then
    discard advance
    discard <| expect .equals
    let url ← string
    discard <| expect .comma
    discard <| expectWord "channel"
    discard <| expect .equals
    let channel ← string
    discard <| expect .semicolon
    return .git url channel (← spanFrom start)
  else
    fail [.keyword "path", .keyword "git"]

/-- A declaration of external modules `extern mod names { … }`. -/
def external : Rule External := do
  let start := (← expectWord "extern").span
  discard <| expectWord "mod"
  let refs ← refList
  discard <| expect .braceOpen
  let origin ← origin
  discard <| expect .braceClose
  return ⟨refs.names, origin, ← closing start⟩

/-- An item of a document (`parse_top_level_item`). -/
def item : Rule Item := do
  let t ← peek
  note (.item t.span.line t.span.column t.kind)
  if t.kind == .annotOpen then
    let annots ← annots
    if ← atWord "mod" then
      return .module (← module annots t.span)
    else
      fail [.keyword "mod", .token .annotOpen]
  else if ← atWord "mod" then
    return .module (← module [] t.span)
  else if ← atWord "extern" then
    return .external (← external)
  else
    fail [.keyword "mod", .keyword "extern"]

/-- A document of a number of bytes (`parse_source_file`). -/
def document (bytes : Nat) : Rule Document := do
  let items ← many do
    if ← atKind .eof then return none else return some (← item)
  return ⟨items, ⟨0, bytes, 1, 1⟩⟩

end Rule

/-- The number of bytes of a source text, by `Text.byteSize`. -/
def sourceSize (source : String) : Nat :=
  Text.byteSize source.toList

namespace Reader

/-- The reader at the start of a source text (`Parser::new`). -/
def ofSource (source : String) : Reader Cursor :=
  ofFeed (.ofSource source)

/-- The results of reading a document of a number of bytes again and again on one reader: calls of
`parse_source_file` one after the other. -/
def documents {σ : Type} [Feed σ] (bytes : Nat) : Nat → Reader σ → List (Except Error Document)
  | 0, _ => []
  | n + 1, r =>
    ((Rule.document bytes).run r).1 :: documents bytes n ((Rule.document bytes).run r).2

end Reader

/-- The tree of a source text, or its first fault (`parse`). -/
def parse (source : String) : Except Error Document :=
  ((Rule.document (sourceSize source)).run (Reader.ofSource source)).1

/-- The events of reading a source text, oldest first: what `parse` logs. -/
def parseEvents (source : String) : List Event :=
  let (result, reader) := (Rule.document (sourceSize source)).run (Reader.ofSource source)
  .begun (sourceSize source) :: reader.events
    ++ match result with
      | .ok d => [.done d.items.length]
      | .error _ => []

end Gxl
