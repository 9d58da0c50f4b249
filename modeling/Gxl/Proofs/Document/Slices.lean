import Gxl.Proofs.Document.Semicolons
import Gxl.Proofs.Grammar.Chunks

/-!
# Slices of a source

The text that the span of an item cuts out of an accepted source is accepted on its own, and holds
that item and nothing else; the text of a member of a module is accepted as the only member of some
other module (`slices_stand_alone`).

The tokens that a span encloses are the phrase of a derivation, without the semicolon that may
follow the last brace.  They are read from the slice alone as they were read from the source: the
last of them is a brace or a semicolon, beyond which none of them sees (`Cursor.Passes.lexes`), and
the first can be told from the name of a builtin command without what stands before it
(`Lexes.of_dot`).
-/

namespace Gxl

open Gxl.Derivation

/-! ## Phrases that stand alone -/

/-- A phrase that ends with a closing brace or a semicolon, beyond which no symbol of it sees. -/
def Closed (w : Phrase) : Prop :=
  ∃ y z, w = y ++ [z] ∧ (z.kind = .braceClose ∨ z.kind = .semicolon)

namespace Closed

/-- What is `Closed` stays so behind any phrase `u`. -/
theorem behind {w : Phrase} (u : Phrase) (h : Closed w) : Closed (u ++ w) := by
  obtain ⟨y, z, rfl, hz⟩ := h
  exact ⟨u ++ y, z, by rw [List.append_assoc], hz⟩

/-- What is `Closed` stays so behind a symbol. -/
theorem cons {w : Phrase} (s : Symbol) (h : Closed w) : Closed (s :: w) :=
  h.behind [s]

theorem semicolon : Closed [.sign .semicolon] :=
  ⟨[], _, rfl, .inr rfl⟩

/-- A closing brace with its `terminator` is closed, be there a semicolon or not. -/
theorem brace (semi : Bool) : Closed (.sign .braceClose :: terminator semi) := by
  cases semi with
  | false => exact ⟨[], _, rfl, .inl rfl⟩
  | true => exact ⟨[.sign .braceClose], _, rfl, .inr rfl⟩

/-- A body in braces (`Derivation.braced`) is closed. -/
theorem braced {β : Type} (y : β → Phrase) (bs : List β) (semi : Bool) :
    Closed (braced y bs semi) :=
  .cons _ (.behind _ (.brace semi))

end Closed

/-- A phrase that is read alike wherever it stands: its first symbol is no name of a builtin command
and cannot become one, and it is `Closed`, so that no symbol sees beyond its last. -/
def Whole (w : Phrase) : Prop :=
  ∃ a b y, w = a :: b :: y ∧ (a.kind = .ident ∨ a.kind = .annotOpen) ∧ b.kind ≠ .dot ∧ Closed y

/-- The parts of a whole phrase: two symbols, and a `Closed` phrase behind them. -/
theorem Whole.intro {a b : Symbol} {y : Phrase} (ha : a.kind = .ident ∨ a.kind = .annotOpen)
    (hb : b.kind ≠ .dot) (hy : Closed y) : Whole (a :: b :: y) :=
  ⟨a, b, y, rfl, ha, hb, hy⟩

/-- Annotations may stand before a phrase that is `Whole`. -/
theorem Whole.annotated {w : Phrase} (h : Whole w) (annots : List Derivation.Annot) :
    Whole (annots.flatMap Annot.yield ++ w) := by
  cases annots with
  | nil => exact h
  | cons a annots =>
    obtain ⟨_, _, y, rfl, -, -, hy⟩ := h
    exact .intro (.inr rfl) (by simp) (((hy.cons _).cons _).behind _)

namespace Derivation

/-- The phrase of every construct is `Whole`: a keyword, and a body in braces or a semicolon at the
end. -/
theorem Construct.whole (c : Construct) : Whole c.yield := by
  cases c with
  | environment name refs entries semi =>
    exact .intro (.inl rfl) (by simp) (.behind _ (.braced _ _ _))
  | flow before name after entries semi =>
    have hbody : Closed (Refs.yieldAfter .pipe after ++ braced FlowEntry.yield entries semi) :=
      .behind _ (.braced _ _ _)
    cases before with
    | none => exact .intro (.inl rfl) (by simp) (hbody.cons _)
    | some r => exact .intro (.inl rfl) (by simp) (((hbody.cons _).cons _).behind _)
  | flowAlias name targets =>
    exact .intro (.inl rfl) (by simp) (.cons _ (.behind _ .semicolon))
  | fn name params body semi =>
    exact .intro (.inl rfl) (by simp) (.cons _ (.behind _ (.cons _ (.braced _ _ _))))
  | activity name props semi => exact .intro (.inl rfl) (by simp) (.braced _ _ _)

/-- The phrase of a member of a module is `Whole`. -/
theorem Member.whole (m : Member) : Whole m.yield := by
  cases m with
  | property p => exact .intro (.inl rfl) (by simp) (.cons _ .semicolon)
  | construct annots c => exact c.whole.annotated annots

/-- The phrase of an item of a document is `Whole`. -/
theorem Top.whole (d : Top) : Whole d.yield := by
  cases d with
  | module annots name refs members semi =>
    have hmodule : Whole (.word "mod" :: name.symbol :: (Refs.yieldAfter .colon refs
        ++ braced Member.yield members semi)) :=
      .intro (.inl rfl) (by simp) (.behind _ (.braced _ _ _))
    simpa [yield, yieldHeader] using hmodule.annotated annots
  | external names origin semi =>
    exact .intro (.inl rfl) (by simp) (.behind _ (.cons _ (.behind _ (.brace semi))))

end Derivation

/-- The phrase of a derivation whose last semicolon is left out is that of a derivation, since what
is derived may be `Restored`. -/
theorem Restored.exists_of_concat {β : Type} {y : β → Phrase} {full : β → β} (h : Restored y full)
    {b : β} {w : Phrase} (hw : y b = w ++ [.sign .braceClose, .sign .semicolon]) :
    ∃ b', y b' = w ++ [.sign .braceClose] ∧ full b' = full b := by
  have htoggles : ∀ (afterBrace : Bool) (w : Phrase), Toggles afterBrace
      (w ++ [.sign .braceClose, .sign .semicolon]) (w ++ [.sign .braceClose]) := by
    intro afterBrace w
    induction w generalizing afterBrace with
    | nil => exact .keep (.strike (.nil false))
    | cons s w ih => exact .keep (ih _)
  obtain ⟨b', z', hb', hfull, hz'⟩ := h b [] _ (by simp) (by simpa [hw] using htoggles false w)
  cases hz' with
  | nil => exact ⟨b', by simpa using hb'.symm, hfull⟩

/-! ## The text of pieces -/

/-- The tokens of pieces but for the comments, which the grammar reads. -/
def Piece.code (ps : List Piece) : List Token :=
  (ps.map token).filter (·.kind != .comment)

/-- A word or an annotation is read alike behind a dot and elsewhere, unless a dot follows: it is no
`Lexeme.builtinTail`. -/
theorem Lexes.of_dot {afterDot : Bool} {cs : List Char} {a b : Symbol} {v : Phrase}
    (h : Lexes afterDot cs (a :: b :: v)) (ha : a.kind = .ident ∨ a.kind = .annotOpen)
    (hb : b.kind ≠ .dot) : Lexes false cs (a :: b :: v) := by
  generalize hw : a :: b :: v = w at h
  induction h with
  | nil => simp at hw
  | blank hc _ ih => exact .blank hc (ih hw)
  | @comment afterDot cs lexeme rest v' hscan _ ih =>
    have htext := Lexeme.scan_append hscan
    rw [← htext] at hscan ⊢
    obtain ⟨body, rfl, hbody, hopen, hline⟩ := Lexeme.scan_comment_cases hscan
    exact .comment (Lexeme.scan_comment false hbody hopen hline) (ih hw)
  | @symbol afterDot cs lexeme rest kind v' hscan hkind h _ =>
    obtain ⟨rfl, rfl⟩ := List.cons.inj hw
    refine .symbol ?_ hkind h
    have htext := Lexeme.scan_append hscan
    rw [← htext] at hscan ⊢
    obtain rfl | rfl : kind = .ident ∨ kind = .annotOpen := ha
    · obtain ⟨hword, hlongest, -⟩ := Lexeme.scan_ident_cases hscan
      refine Lexeme.scan_word hword hlongest (.inr (.inr ?_))
      -- the tail of a name of a builtin command would start with a dot
      rw [Option.eq_none_iff_forall_ne_some]
      rintro ⟨tail, more⟩ hsome
      obtain ⟨w, rfl, hcalls⟩ := Lexeme.builtinTail_cases hsome
      obtain rfl : rest = '.' :: (w ++ more) := by simpa using hcalls.text
      obtain ⟨v', hv', -⟩ := h.of_sign (k := .dot) (by decide)
      obtain ⟨rfl, -⟩ := List.cons.inj hv'
      exact hb rfl
    · have hgenuine := Lexeme.genuine_of_scan hscan hkind
      have hsign := Symbol.eq_sign_of_genuine hgenuine (by simp [Kind.spelling])
      obtain rfl : lexeme = Kind.annotOpen.spelling.toList := by
        simpa [Symbol.sign] using congrArg (fun s => s.text.toList) hsign
      exact Lexeme.scan_sign false _ (by decide)

namespace Cursor.Passes

variable {c d : Cursor} {ps qs : List Piece}

/-- A cursor that passes pieces in two parts stops between them. -/
theorem exists_split (h : Passes c (ps ++ qs) d) : ∃ e, Passes c ps e ∧ Passes e qs d := by
  induction ps generalizing c with
  | nil => exact ⟨c, .nil c, h⟩
  | cons p ps ih =>
    cases h with
    | cons hnext heof hrest h =>
      obtain ⟨e, hps, hqs⟩ := ih h
      exact ⟨e, .cons hnext heof hrest hps, hqs⟩

/-- The tokens of pieces that are passed are those of a `Run`. -/
theorem run (h : Passes c ps d) : Run c (ps.map Piece.token) d := by
  induction h with
  | nil c => exact .nil c
  | cons hnext heof _ _ ih => exact .cons hnext heof ih

/-- The tokens of pieces that are passed, comments aside, are `genuine`. -/
theorem genuine (h : Passes c ps d) : ∀ x ∈ Piece.code ps, x.symbol.genuine = true := by
  induction h with
  | nil c => simp [Piece.code]
  | @cons c c' d p ps hnext heof _ _ ih =>
    intro x hx
    obtain ⟨hx, hcomment⟩ := List.mem_filter.1 hx
    rcases List.mem_cons.1 hx with rfl | hx
    · have hgenuine := Lexeme.genuine_of_scan (scan_of_next hnext heof) (by simpa using hcomment)
      rwa [String.ofList_toList] at hgenuine
    · exact ih x (List.mem_filter.2 ⟨hx, hcomment⟩)

/-- The tokens of pieces are read from their text, with any text behind them that looks the same to
them (`SameAhead`). -/
theorem lexes (h : Passes c ps d) {cs : List Char} (hcs : SameAhead d.afterDot d.rest cs)
    {u : Phrase} (hu : Lexes d.afterDot cs u) :
    Lexes c.afterDot (Piece.joined ps ++ cs)
      (symbols (Piece.code ps) ++ u) := by
  obtain ⟨front, hfront, -, hrun⟩ := h.run.swap hcs
  obtain rfl : Piece.joined ps = front := List.append_cancel_right (h.rest_eq.symm.trans hfront)
  exact hrun.lexes hu

/-- Pieces that end with a brace or a semicolon are read with any text `tail` behind them. -/
theorem lexes_closed {z : Piece} (h : Passes c (ps ++ [z]) d)
    (hz : z.token.kind = .braceClose ∨ z.token.kind = .semicolon) {tail : List Char} {u : Phrase}
    (hu : Lexes false tail u) :
    Lexes c.afterDot (Piece.joined (ps ++ [z]) ++ tail)
      (symbols (Piece.code (ps ++ [z])) ++ u) := by
  obtain ⟨e, hps, hlast⟩ := h.exists_split
  obtain ⟨ch, hch, hspelling⟩ : ∃ ch, (ch = '\x7d' ∨ ch = ';') ∧
      z.token.kind.spelling.toList = [ch] := by
    rcases hz with hz | hz
    · exact ⟨_, .inl rfl, by rw [hz]; rfl⟩
    · exact ⟨_, .inr rfl, by rw [hz]; rfl⟩
  have hkind : z.token.kind.spelling ≠ "" := by
    intro hempty
    simp [hempty] at hspelling
  have hdot : (z.token.kind == .dot) = false := by
    rcases hz with hz | hz <;> rw [hz] <;> rfl
  have hcomment : (z.token.kind != .comment) = true := by
    rcases hz with hz | hz <;> rw [hz] <;> rfl
  cases hlast with
  | cons hnext heof hrest _ =>
    have htext := text_of_next hnext rfl hkind
    have hsymbol : z.token.symbol = .sign z.token.kind := by
      rw [Token.symbol, Symbol.sign, String.toList_inj.1 htext]
    have hsame : SameAhead e.afterDot e.rest (z.text ++ tail) := by
      rw [hrest, Piece.text, htext, hspelling, List.append_assoc, List.append_assoc]
      exact .blanks z.blank (.sign hch _ _)
    have hlexes : Lexes e.afterDot (z.text ++ tail) (z.token.symbol :: u) := by
      rw [hsymbol, Piece.text, htext, List.append_assoc]
      exact .blanks z.blank (.sign hkind (hdot ▸ hu))
    simpa [Piece.code, hcomment] using hps.lexes hsame hlexes

end Cursor.Passes

/-! ## The slice of a span -/

/-- Where some tokens are a stretch of the `code` of pieces, the pieces between the first and the
last have just these tokens, comments aside. -/
theorem Piece.exists_of_stretch {ps : List Piece} {v : List Token} {a z : Token}
    (h : a :: (v ++ [z]) <:+: code ps) :
    ∃ before p mid q after, ps = before ++ (p :: (mid ++ [q]) ++ after) ∧ p.token = a ∧
      q.token = z ∧ code (p :: (mid ++ [q])) = a :: (v ++ [z]) := by
  obtain ⟨s, t, hst⟩ := h
  have hall : (ps.filter ((·.kind != .comment) ∘ token)).map token = s ++ a :: (v ++ z :: t) := by
    rw [← List.filter_map, ← code, ← hst]
    simp
  obtain ⟨ss, rest₁, hfilter, -, hrest₁⟩ := List.map_eq_append_iff.1 hall
  obtain ⟨p, rest₂, rfl, rfl, hrest₂⟩ := List.map_eq_cons_iff.1 hrest₁
  obtain ⟨vs, rest₃, rfl, rfl, hrest₃⟩ := List.map_eq_append_iff.1 hrest₂
  obtain ⟨q, rest₄, rfl, rfl, -⟩ := List.map_eq_cons_iff.1 hrest₃
  -- the comments before the first token and those before the last go to either side
  obtain ⟨before, ps₁, rfl, -, hps₁⟩ := List.filter_eq_append_iff.1 hfilter
  obtain ⟨gap, ps₂, rfl, -, hp, hps₂⟩ := List.filter_eq_cons_iff.1 hps₁
  obtain ⟨mid, ps₃, rfl, hmid, hps₃⟩ := List.filter_eq_append_iff.1 hps₂
  obtain ⟨gap', after, rfl, hgap', hq, -⟩ := List.filter_eq_cons_iff.1 hps₃
  refine ⟨before ++ gap, p, mid ++ gap', q, after, by simp, rfl, rfl, ?_⟩
  have hgap : gap'.filter ((·.kind != .comment) ∘ token) = [] :=
    List.filter_eq_nil_iff.2 hgap'
  rw [code, List.filter_map, List.filter_cons_of_pos hp, List.filter_append, List.filter_append,
    hmid, hgap, List.filter_cons_of_pos hq]
  simp

namespace Cursor.Passes

variable {d : Cursor} {before mid after : List Piece} {p q : Piece}

/-- The slice from the first token of some pieces to the last is the text of the pieces without the
blanks before them: what `Span.text?` cuts out. -/
theorem text_between {source : String}
    (h : Passes (ofSource source) (before ++ (p :: (mid ++ [q]) ++ after)) d) :
    Span.text? { p.token.span with stop := q.token.span.stop } source
      = some (String.ofList (p.token.text.toList ++ Piece.joined (mid ++ [q]))) := by
  have hfirst : Passes (ofSource source) (before ++ p :: (mid ++ [q] ++ after)) d := h
  have hlast : Passes (ofSource source) ((before ++ p :: mid) ++ q :: after) d := by simpa using h
  have hsource : source.toList = (Piece.joined before ++ p.gap)
      ++ (p.token.text.toList ++ Piece.joined (mid ++ [q])) ++ (Piece.joined after ++ d.rest) := by
    have hjoined : source.toList = _ := h.rest_eq
    rw [hjoined]
    simp [Piece.text]
  have hstart : p.token.span.start = Text.byteSize (Piece.joined before ++ p.gap) :=
    hfirst.span.1.trans (Nat.zero_add _)
  have hstop : q.token.span.stop = Text.byteSize (Piece.joined before ++ p.gap)
      + Text.byteSize (p.token.text.toList ++ Piece.joined (mid ++ [q])) := by
    rw [hlast.span.2, ← Text.byteSize_append]
    simp [Piece.text, ofSource, Position.start]
  rw [Span.text?, hstart, hstop, hsource, Text.slice?_append]
  rfl

/-- The tokens of some pieces, the last of them a brace or a semicolon, are read from their text
without the blanks before them, whatever `tail` follows. -/
theorem lexes_between {c : Cursor} (h : Passes c (before ++ (p :: (mid ++ [q]) ++ after)) d)
    (hq : q.token.kind = .braceClose ∨ q.token.kind = .semicolon) {tail : List Char} {u : Phrase}
    (hu : Lexes false tail u) :
    ∃ afterDot, Lexes afterDot (p.token.text.toList ++ Piece.joined (mid ++ [q]) ++ tail)
      (symbols (Piece.code (p :: (mid ++ [q]))) ++ u) := by
  obtain ⟨e, -, hrest⟩ := h.exists_split
  obtain ⟨f, hpieces, -⟩ := hrest.exists_split
  have hpieces : Passes e ((p :: mid) ++ [q]) f := hpieces
  have htext : Piece.joined ((p :: mid) ++ [q]) ++ tail
      = p.gap ++ (p.token.text.toList ++ Piece.joined (mid ++ [q]) ++ tail) := by
    simp [Piece.text]
  have hlexes := hpieces.lexes_closed hq hu
  rw [htext] at hlexes
  exact ⟨e.afterDot, hlexes.of_blanks p.blank⟩

end Cursor.Passes

/-- The tokens `v` that a span covers are read from its slice alone, and with any text behind it. -/
theorem exists_slice {source : String} {ps : List Piece} {d : Cursor} {v : List Token} {s : Span}
    (hps : Cursor.Passes (Cursor.ofSource source) ps d) (hs : s.Covers v) (hv : Whole (symbols v))
    (hstretch : v <:+: Piece.code ps) :
    ∃ slice, s.text? source = some (String.ofList slice) ∧
      ∀ tail u, Lexes false tail u → Lexes false (slice ++ tail) (symbols v ++ u) := by
  -- the tokens are those of some pieces, from the first to the last
  obtain ⟨a, b, y, hsymbols, ha, hb, w, last, rfl, hlast⟩ := hv
  obtain ⟨x, v₁, rfl, rfl, hv₁⟩ := List.map_eq_cons_iff.1 hsymbols
  have hv₁ : v₁.map Token.symbol = (b :: w) ++ [last] := hv₁
  obtain ⟨v₂, zs, rfl, -, hzs⟩ := List.map_eq_append_iff.1 hv₁
  obtain ⟨z, _, rfl, rfl, hnil⟩ := List.map_eq_cons_iff.1 hzs
  obtain rfl := List.map_eq_nil_iff.1 hnil
  obtain ⟨before, p, mid, q, after, rfl, rfl, rfl, htokens⟩ := Piece.exists_of_stretch hstretch
  refine ⟨p.token.text.toList ++ Piece.joined (mid ++ [q]), ?_, fun tail u hu => ?_⟩
  · obtain ⟨x, hx, z, hz, rfl⟩ := hs
    obtain rfl : p.token = x := Option.some.inj hx
    obtain rfl : q.token = z := by simpa [List.getLast?_cons] using hz
    exact hps.text_between
  · obtain ⟨afterDot, hlexes⟩ := hps.lexes_between hlast hu
    rw [htokens, hsymbols] at hlexes
    rw [hsymbols]
    exact hlexes.of_dot ha hb

/-- The tokens that a span encloses but for the semicolon behind the last brace, and a derivation of
them that denotes the same tree (the same `full`). -/
theorem Span.Encloses.exists_derivation {s : Span} {w : List Token} (h : s.Encloses w) {β : Type}
    {y : β → Phrase} {full : β → β} (hrestored : Restored y full)
    (hgenuine : ∀ x ∈ w, x.symbol.genuine = true) {b : β} (hb : y b = symbols w) :
    ∃ v b', v <+: w ∧ s.Covers v ∧ y b' = symbols v ∧ full b' = full b := by
  cases h with
  | whole covers => exact ⟨w, b, List.prefix_rfl, covers, hb, rfl⟩
  | @terminated w brace semi hbrace hsemi covers =>
    have hsign : ∀ (x : Token) (k : Kind), x ∈ w ++ [brace, semi] → x.kind = k → k.spelling ≠ "" →
        x.symbol = .sign k := by
      rintro x _ hx rfl hk
      exact Symbol.eq_sign_of_genuine (hgenuine x hx) hk
    have hbrace := hsign brace _ (by simp) hbrace (by decide)
    have hsemi := hsign semi _ (by simp) hsemi (by decide)
    obtain ⟨b', hb', hfull⟩ := hrestored.exists_of_concat (b := b) (w := symbols w)
      (by rw [hb]; simp [hbrace, hsemi])
    refine ⟨w ++ [brace], b', ?_, covers, by rw [hb']; simp [hbrace], hfull⟩
    exact ⟨[semi], by simp⟩

/-- A word is read before a blank, also behind a dot. -/
theorem Lexes.word {afterDot : Bool} {w : String} (hw : Lexeme.isWord w.toList = true)
    {cs : List Char} {v : Phrase} (h : Lexes false cs v) :
    Lexes afterDot (w.toList ++ ' ' :: cs) (.word w :: v) := by
  have hscan : Lexeme.scan afterDot (w.toList ++ ' ' :: cs)
      = .token .ident w.toList (' ' :: cs) := by
    refine Lexeme.scan_word hw ?_ (.inr (.inr rfl))
    rintro _ ⟨⟩
    rfl
  have hsymbol := Lexes.symbol hscan (by decide) (.blank (by decide) h)
  rwa [String.ofList_toList] at hsymbol

/-! ## Items and members -/

/-- The pieces of an accepted source fall into chunks, one for each item (`EachFrom`). -/
theorem exists_pieces_of_parse {source : String} {t : Document} (h : parse source = .ok t) :
    ∃ ps d, Cursor.Passes (Cursor.ofSource source) ps d ∧
      EachFrom (fun v i => i.ReadFrom v) (Piece.code ps) t.items := by
  obtain ⟨ts, hts, heach⟩ := exists_chunks_of_parse h
  obtain ⟨ps, d, x, hps, hx, hpasses, -⟩ := exists_passes_of_parse h
  obtain rfl := Except.ok.inj (hts.symm.trans hps)
  refine ⟨ps, d, hpasses, ?_⟩
  have hcode : (ps.map Piece.token ++ [x]).filter (fun x => x.kind != .comment && x.kind != .eof)
      = Piece.code ps := by
    rw [List.filter_append, List.filter_cons_of_neg (by simp [hx]), List.filter_nil,
      List.append_nil]
    refine List.filter_congr fun y hy => ?_
    simp [hpasses.run.kind_ne_eof y hy]
  rwa [hcode] at heach

/-- A list that is a single item once it is erased by `erase` is a single item. -/
theorem exists_singleton_of_erase {α : Type} [Placed α] {as : List α} {b : α}
    (h : erase as = [b]) : ∃ a, as = [a] ∧ erase a = b := by
  obtain ⟨a, rest, rfl, ha, hrest⟩ := List.map_eq_cons_iff.1 h
  obtain rfl := List.map_eq_nil_iff.1 hrest
  exact ⟨a, rfl, ha⟩

section Chunks

variable {source : String} {ps : List Piece} {d : Cursor} {w : List Token}

/-- The slice of a construct is read as a derivation that denotes the same tree: `exists_slice` with
the chunk `w` that its span encloses. -/
theorem exists_slice_of_chunk (hps : Cursor.Passes (Cursor.ofSource source) ps d)
    (hw : w <:+: Piece.code ps) {s : Span} (hs : s.Encloses w) {β : Type} {y : β → Phrase}
    {full : β → β} (hrestored : Restored y full) (hwhole : ∀ b, Whole (y b)) {b : β}
    (hb : y b = symbols w) :
    ∃ slice b', s.text? source = some slice ∧ full b' = full b ∧
      ∀ tail u, Lexes false tail u → Lexes false (slice.toList ++ tail) (y b' ++ u) := by
  obtain ⟨v, b', hv, hcovers, hb', hfull⟩ :=
    hs.exists_derivation hrestored (fun x hx => hps.genuine x (hw.subset hx)) hb
  obtain ⟨slice, htext, hlexes⟩ :=
    exists_slice hps hcovers (hb' ▸ hwhole b') (hv.isInfix.trans hw)
  refine ⟨.ofList slice, b', htext, hfull, fun tail u hu => ?_⟩
  rw [String.toList_ofList, hb']
  exact hlexes tail u hu

/-- The slice of an item is accepted by `parse`, with this item only. -/
theorem exists_parse_slice (hps : Cursor.Passes (Cursor.ofSource source) ps d)
    (hw : w <:+: Piece.code ps) {i : Item} (hi : i.ReadFrom w) :
    ∃ slice t' i', i.span.text? source = some slice ∧ parse slice = .ok t' ∧ t'.items = [i'] ∧
      erase i' = erase i := by
  obtain ⟨b, hb, htree⟩ := hi.derives
  obtain ⟨slice, b', htext, hfull, hlexes⟩ :=
    exists_slice_of_chunk hps hw hi.chunk.encloses Top.restored Top.whole hb
  have halone := hlexes [] _ (.nil false)
  rw [List.append_nil] at halone
  obtain ⟨t', ht', herase⟩ := parse_of_lexes (d := ⟨[b']⟩) (by simpa [File.yield] using halone)
  obtain ⟨i', hitems, hi'⟩ := exists_singleton_of_erase (congrArg Document.items herase)
  refine ⟨slice, t', i', htext, ht', hitems, ?_⟩
  rw [hi', htree, ← b'.tree_full, hfull, b.tree_full]

/-- The slice of a member is accepted between the braces of a module of any `name`, as its only
member. -/
theorem exists_parse_member (hps : Cursor.Passes (Cursor.ofSource source) ps d)
    (hw : w <:+: Piece.code ps) {j : Member} (hj : j.ReadFrom w) :
    ∃ slice, j.span.text? source = some slice ∧
      ∀ name : String, Lexeme.isWord name.toList = true →
        ∃ t' m' j', parse ("mod " ++ name ++ " \x7b" ++ slice ++ "\x7d") = .ok t' ∧
          t'.items = [.module m'] ∧ m'.members = [j'] ∧ erase j' = erase j := by
  obtain ⟨b, hb, htree⟩ := hj.derives
  obtain ⟨slice, b', htext, hfull, hlexes⟩ :=
    exists_slice_of_chunk hps hw hj.chunk.encloses Member.restored Member.whole hb
  refine ⟨slice, htext, fun name hname => ?_⟩
  have hmembers := hlexes ['\x7d'] _ (.sign (k := .braceClose) (by decide) (.nil _))
  have htext : ("mod " ++ name ++ " \x7b" ++ slice ++ "\x7d").toList
      = "mod".toList ++ ' ' :: (name.toList ++ ' ' :: ("\x7b".toList
        ++ (slice.toList ++ ['\x7d']))) := by
    simp
  have hyield : File.yield ⟨[.module [] ⟨name, hname⟩ none [b'] false]⟩ ++ [⟨.eof, ""⟩]
      = .word "mod" :: .word name :: .sign .braceOpen ::
        (b'.yield ++ [.sign .braceClose, ⟨.eof, ""⟩]) := by
    simp [File.yield, Top.yield, Top.yieldHeader, braced, Refs.yieldAfter, terminator, Name.symbol]
  have hmodule : Lexes false ("mod " ++ name ++ " \x7b" ++ slice ++ "\x7d").toList
      (File.yield ⟨[.module [] ⟨name, hname⟩ none [b'] false]⟩ ++ [⟨.eof, ""⟩]) := by
    rw [htext, hyield]
    exact .word (w := "mod") (by decide)
      (.word hname (.sign (k := .braceOpen) (by decide) hmembers))
  obtain ⟨t', ht', herase⟩ := parse_of_lexes hmodule
  obtain ⟨i', hitems, hi'⟩ := exists_singleton_of_erase (congrArg Document.items herase)
  cases i' with
  | external e => cases hi'
  | module m' =>
    have hm' := congrArg Module.members (Item.module.inj hi')
    obtain ⟨j', hmembers, hj'⟩ := exists_singleton_of_erase hm'
    refine ⟨t', m', j', ht', hitems, hmembers, ?_⟩
    rw [hj', htree, ← b'.tree_full, hfull, b.tree_full]

end Chunks

/-- Every item and every member of an accepted source stands alone.  The slice of an item, which
`Span.text?` cuts out, is accepted with this item only, up to spans; and the slice of a member of a
module is accepted between the braces of a module of any name, as its only member. -/
theorem slices_stand_alone {source : String} {t : Document} (h : parse source = .ok t) :
    (∀ i ∈ t.items, ∃ slice t' i', i.span.text? source = some slice ∧ parse slice = .ok t' ∧
      t'.items = [i'] ∧ erase i' = erase i) ∧
    ∀ m ∈ t.modules, ∀ j ∈ m.members, ∃ slice, j.span.text? source = some slice ∧
      ∀ name : String, Lexeme.isWord name.toList = true →
        ∃ t' m' j', parse ("mod " ++ name ++ " \x7b" ++ slice ++ "\x7d") = .ok t' ∧
          t'.items = [.module m'] ∧ m'.members = [j'] ∧ erase j' = erase j := by
  obtain ⟨ps, d, hps, heach⟩ := exists_pieces_of_parse h
  constructor
  · intro i hi
    obtain ⟨w, hw, hread⟩ := heach.exists_stretch hi
    exact exists_parse_slice hps hw hread
  · intro m hm j hj
    obtain ⟨i, hi, him⟩ := List.mem_filterMap.1 hm
    obtain ⟨w, hw, hread⟩ := heach.exists_stretch hi
    obtain rfl : i = .module m := by
      cases i <;> simp_all
    obtain ⟨v, hv, hread⟩ := hread.members m rfl j hj
    exact exists_parse_member hps (hv.trans hw) hread

/-- A source with a comment, a property, a name for other flows, an environment that calls a builtin
command, and external modules, and with both of the optional semicolons and none. -/
def mixedItems : String :=
  "# c\n#[a] mod m \x7b k = 1; flow f : g; env e \x7b gx.echo # d\n (); \x7d ; \x7d ; "
    ++ "extern mod q \x7b path = \"p\"; \x7d"

theorem slices_stand_alone_mixedItems :
    ∃ t, parse mixedItems = .ok t ∧ t.items.length = 2 ∧
      (∀ i ∈ t.items, ∃ slice t' i', i.span.text? mixedItems = some slice ∧ parse slice = .ok t' ∧
        t'.items = [i'] ∧ erase i' = erase i) ∧
      ∃ m ∈ t.modules, m.members.length = 3 ∧ ∀ j ∈ m.members, ∃ slice t' m' j',
        j.span.text? mixedItems = some slice ∧ parse ("mod m \x7b" ++ slice ++ "\x7d") = .ok t' ∧
          t'.items = [.module m'] ∧ m'.members = [j'] ∧ erase j' = erase j := by
  have hok : (parse mixedItems).toOption.map (fun t =>
      (t.items.length, t.modules.map (·.members.length))) = some (2, [3]) := by
    decide +kernel
  cases h : parse mixedItems with
  | error e => simp [h, Except.toOption] at hok
  | ok t =>
    obtain ⟨hitems, hmembers⟩ := slices_stand_alone h
    obtain ⟨htwo, hthree⟩ : t.items.length = 2 ∧ t.modules.map (·.members.length) = [3] := by
      simpa only [h, Except.toOption, Option.map_some, Option.some.injEq, Prod.mk.injEq] using hok
    obtain ⟨m, _, hm, hlength, -⟩ := List.map_eq_cons_iff.1 hthree
    have hmem : m ∈ t.modules := by simp [hm]
    refine ⟨t, rfl, htwo, hitems, m, hmem, hlength, fun j hj => ?_⟩
    obtain ⟨slice, htext, hslice⟩ := hmembers m hmem j hj
    obtain ⟨t', m', j', hparse, hrest⟩ := hslice "m" (by decide)
    exact ⟨slice, t', m', j', htext, hparse, hrest⟩

end Gxl
