import Gxl.Proofs.Document.ModuloSpans
import Gxl.Proofs.Grammar.Seams

/-!
# Documents one behind the other

Two documents joined by a line feed are a document (`parse_join`): its items are those of the first,
with the same spans, and then those of the second, with every span further on by the first text and
the line feed.

A document ends with a closing brace or a semicolon, and starts with an item or not at all.  So
there is a seam between the tokens of the two (`significant_join`), and the items are read up to it
as if the text ended there, and behind it as if it started there (`Rule.run_items`).
-/

namespace Gxl

/-! ## How a document starts and ends -/

namespace Derivation

/-- The yield of an item ends with a closing brace and the `terminator` behind it. -/
theorem Top.exists_yield_eq (d : Top) :
    ∃ w semi, d.yield = w ++ .sign .braceClose :: terminator semi := by
  cases d with
  | module annots name refs members semi =>
    exact ⟨yieldHeader annots name refs ++ .sign .braceOpen :: members.flatMap Member.yield, semi,
      by simp [yield, braced]⟩
  | external names origin semi =>
    exact ⟨.word "extern" :: .word "mod" :: (names.yield ++ .sign .braceOpen :: origin.yield), semi,
      by simp [yield]⟩

/-- The yield of a document does not end with a dot. -/
theorem File.getLast_yield_ne_dot (d : File) : ∀ s ∈ d.yield.getLast?, s.kind ≠ .dot := by
  intro s hs
  rcases List.eq_nil_or_concat d.tops with htops | ⟨tops, top, htops⟩
  · simp [File.yield, htops] at hs
  · obtain ⟨w, semi, hw⟩ := top.exists_yield_eq
    cases semi with
    | false =>
      obtain rfl : .sign .braceClose = s := by
        simpa [File.yield, htops, hw, terminator] using hs
      simp
    | true =>
      obtain rfl : .sign .semicolon = s := by
        simpa [File.yield, htops, hw, terminator] using hs
      simp

/-- Tokens with the yield of a document, and the end of the text behind them, start with a token
that `Resumes`: an item starts with it, or it is the end of the text. -/
theorem File.resumes {d : File} {code : List Token} {x : Token} (hcode : symbols code = d.yield)
    (hx : x.kind = .eof) : ∃ z more, code ++ [x] = z :: more ∧ z.Resumes := by
  cases code with
  | nil => exact ⟨x, [], rfl, by simp [Token.Resumes, hx]⟩
  | cons t code =>
    refine ⟨t, code ++ [x], rfl, ?_⟩
    cases htops : d.tops with
    | nil => simp [File.yield, htops] at hcode
    | cons top tops =>
      obtain ⟨s, u, hs, hkind⟩ := top.startsEntry
      obtain ⟨rfl, -⟩ : t.symbol = s ∧ _ := by
        simpa [File.yield, htops, hs] using hcode
      simpa [Token.Resumes] using .inr hkind

end Derivation

/-- The `significant` tokens of a source that is accepted: those of a derivation, all `genuine`, and
the end of the text. -/
theorem exists_code_of_parse {source : String} {t : Document} (h : parse source = .ok t) :
    ∃ (code : List Token) (x : Token) (d : Derivation.File),
      (Cursor.ofSource source).stream.2 = none ∧
      (Cursor.ofSource source).significant = code ++ [x] ∧ x.kind = .eof ∧
      (∀ t ∈ code, t.symbol.genuine = true) ∧ symbols code = d.yield := by
  obtain ⟨ts, d, hts, hd, -⟩ := exists_derivation h
  obtain ⟨hfault, code, x, hcode, hx, hne, hsymbols⟩ := significantTokens_of_tokenize hts
  refine ⟨code, x, d, hfault, hcode, hx, fun t ht => ?_, hsymbols.trans hd.symm⟩
  have hmem : t ∈ (Cursor.ofSource source).significant := by
    rw [show (Cursor.ofSource source).significant = code ++ [x] from hcode]
    exact List.mem_append_left _ ht
  exact (Reader.genuine_or_eof_of_gives (Cursor.gives_stream _) t hmem).resolve_right (hne t ht)

/-- A source whose first token `Resumes` does not start with a parenthesis, so that
`Lexeme.opensCall` is false of it. -/
theorem opensCall_of_resumes {source : String} {z : Token} {more : List Token}
    (h : (Cursor.ofSource source).significant = z :: more) (hz : z.Resumes) :
    Lexeme.opensCall false source.toList = false := by
  by_contra hopens
  obtain ⟨extras, tail, hsource, hextras⟩ :=
    Lexeme.opensCall_iff.1 (by simpa using hopens)
  obtain ⟨t, rest, hsignificant, ht⟩ :=
    Cursor.significant_of_extras hextras tail Position.start false
  rw [← hsource] at hsignificant
  obtain ⟨rfl, -⟩ := List.cons.inj (h.symm.trans hsignificant)
  exact hz.kind_ne (by decide) ht

/-! ## Reading on behind a seam -/

/-- The items of an accepted source are what `Rule.items` reads at the start of it. -/
theorem exists_run_items_of_parse {source : String} {t : Document} (h : parse source = .ok t) :
    ∃ r, Rule.items.run (Reader.ofSource source) = (.ok t.items, r) := by
  rw [parse, Rule.run_document, Rule.run_bind] at h
  rcases hrun : Rule.items.run (Reader.ofSource source) with ⟨e | is, r⟩ <;> rw [hrun] at h
  · simp at h
  · obtain rfl := Except.ok.inj h
    exact ⟨r, rfl⟩

/-- Where the stream of a source has no fault, a reader of it holds the `significant` tokens, with
no fault behind them. -/
theorem Reader.holds_ofSource {source : String} (h : (Cursor.ofSource source).stream.2 = none) :
    (ofSource source).Holds (Cursor.ofSource source).significant none := by
  rw [← h]
  exact holds_ofFeed (Cursor.gives_stream _)

/-- The items of a document are read from its tokens further on, behind a seam, as they are at the
start of a text: `Token.shift` on the tokens is `Span.shift` on the tree. -/
theorem exists_run_items_behind {source : String} {t : Document} (h : parse source = .ok t)
    {bytes lines : Nat} {s : Reader Cursor}
    (hs : s.Holds ((Cursor.ofSource source).significant.map (Token.shift bytes lines)) none) :
    ∃ s', Rule.items.run s = (.ok (mapSpans (Span.shift bytes lines) t.items), s') := by
  obtain ⟨code, x, -, hfault, hcode, hx, hgenuine, -⟩ := exists_code_of_parse h
  rw [hcode, List.map_append] at hs
  have hshares : Reader.Shares bytes lines False (Reader.ofSource source) s code
      [x.shift bytes lines] :=
    ⟨⟨x, hx, hcode ▸ Reader.holds_ofSource hfault⟩, hs, hgenuine,
      ⟨x.shift bytes lines, [], rfl, List.mem_cons.2 (.inl hx)⟩, False.elim⟩
  obtain ⟨r, hrun⟩ := exists_run_items_of_parse h
  obtain ⟨s₁, hs₁, hbehind⟩ := Rule.run_items hshares hrun
  obtain ⟨s₂, hpeek, -⟩ := Reader.peek_of_cons hs₁
  have hitems := hbehind _ _ (Rule.run_items_of_eof hpeek hx)
  rw [List.append_nil] at hitems
  exact ⟨s₂, hitems⟩

/-- The tokens of a document are those of the text `a ++ "\n" ++ b` in which another follows, up to
the seam, and behind it stand those of the other, further on (`Reader.Shares`). -/
theorem exists_shares_join {a b : String} {ta tb : Document} (ha : parse a = .ok ta)
    (hb : parse b = .ok tb) :
    ∃ code, Reader.Shares 0 0 False (Reader.ofSource a) (Reader.ofSource (a ++ "\n" ++ b)) code
      ((Cursor.ofSource b).significant.map
        (Token.shift (a.utf8ByteSize + 1) (a.toList.count '\n' + 1))) := by
  obtain ⟨code, x, d, hfault, hcode, hx, hgenuine, hd⟩ := exists_code_of_parse ha
  obtain ⟨code', x', d', hfault', hcode', hx', -, hd'⟩ := exists_code_of_parse hb
  obtain ⟨z, more, hz, hresumes⟩ := Derivation.File.resumes hd' hx'
  have hdot : ∀ t ∈ code.getLast?, t.kind ≠ .dot := by
    intro t ht
    refine d.getLast_yield_ne_dot t.symbol ?_
    rw [← hd, symbols, List.getLast?_map, Option.mem_def.1 ht]
    rfl
  obtain ⟨hnone, htokens⟩ := significant_join hfault hcode hdot hfault'
    (opensCall_of_resumes (hcode'.trans hz) hresumes)
  refine ⟨code, ⟨x, hx, hcode ▸ Reader.holds_ofSource hfault⟩, ?_, hgenuine,
    ⟨z.shift _ _, more.map (Token.shift _ _), by rw [hcode', hz]; rfl, hresumes⟩, False.elim⟩
  have hsame : code.map (Token.shift 0 0) = code := List.map_id' code
  rw [hsame, ← htokens]
  exact Reader.holds_ofSource hnone

/-- Two documents joined by a line feed are a document: the items of the first, unchanged, and those
of the second under `Span.shift`, further on by the bytes of the first and the line feed, and
further down by the lines that these end. -/
theorem parse_join {a b : String} {ta tb : Document} (ha : parse a = .ok ta)
    (hb : parse b = .ok tb) :
    parse (a ++ "\n" ++ b)
      = .ok ⟨ta.items ++
          mapSpans (Span.shift (a.utf8ByteSize + 1) (a.toList.count '\n' + 1)) tb.items,
        ⟨0, a.utf8ByteSize + 1 + b.utf8ByteSize, 1, 1⟩⟩ := by
  obtain ⟨code, hshares⟩ := exists_shares_join ha hb
  obtain ⟨r, hrun⟩ := exists_run_items_of_parse ha
  obtain ⟨s, hs, hbehind⟩ := Rule.run_items hshares hrun
  obtain ⟨s', hrest⟩ := exists_run_items_behind hb hs
  have hfirst : Placed.shift 0 0 ta.items = ta.items := mapSpans_id ta.items
  have hsize : sourceSize (a ++ "\n" ++ b) = a.utf8ByteSize + 1 + b.utf8ByteSize := by
    rw [sourceSize, Text.byteSize_toList, String.utf8ByteSize_append, String.utf8ByteSize_append]
    rfl
  rw [parse, Rule.run_document, Rule.run_bind_of_ok (hbehind _ _ hrest), hfirst, hsize]
  rfl

/-- A module, and a comment that goes on to the end of the text and that the line feed of
`parse_join` ends. -/
def commentedModule : String :=
  "mod m \x7b k = 1; \x7d\n# é"

/-- The tree of `commentedModule`. -/
def commentedTree : Document :=
  ⟨[.module ⟨[], ⟨"m", ⟨4, 5, 1, 5⟩⟩, none,
    [.property ⟨⟨"k", ⟨8, 9, 1, 9⟩⟩, .number ⟨"1", ⟨12, 13, 1, 13⟩⟩, ⟨8, 14, 1, 9⟩⟩],
    ⟨0, 16, 1, 1⟩⟩], ⟨0, 21, 1, 1⟩⟩

/-- External modules on the second line, to stand behind `commentedModule`. -/
def externalModules : String :=
  "\nextern mod a, b \x7b path = \"p\"; \x7d;"

/-- The tree of `externalModules`. -/
def externalTree : Document :=
  ⟨[.external ⟨[⟨"a", ⟨12, 13, 2, 12⟩⟩, ⟨"b", ⟨15, 16, 2, 15⟩⟩],
    .path ⟨"p", ⟨26, 29, 2, 26⟩⟩ ⟨19, 30, 2, 19⟩, ⟨1, 32, 2, 1⟩⟩], ⟨0, 33, 1, 1⟩⟩

theorem parse_join_commentedModule :
    parse commentedModule = .ok commentedTree ∧ parse externalModules = .ok externalTree ∧
      parse (commentedModule ++ "\n" ++ externalModules)
        = .ok ⟨commentedTree.items ++ [.external ⟨[⟨"a", ⟨34, 35, 4, 12⟩⟩, ⟨"b", ⟨37, 38, 4, 15⟩⟩],
            .path ⟨"p", ⟨48, 51, 4, 26⟩⟩ ⟨41, 52, 4, 19⟩, ⟨23, 54, 4, 1⟩⟩], ⟨0, 55, 1, 1⟩⟩ := by
  have ha : parse commentedModule = .ok commentedTree := by decide +kernel
  have hb : parse externalModules = .ok externalTree := by decide +kernel
  have hjoin := parse_join ha hb
  have hbytes : commentedModule.utf8ByteSize = 21 := by decide +kernel
  have hbytes' : externalModules.utf8ByteSize = 33 := by decide +kernel
  have hlines : commentedModule.toList.count '\n' = 1 := by decide +kernel
  rw [hbytes, hbytes', hlines] at hjoin
  exact ⟨ha, hb, hjoin⟩

end Gxl
