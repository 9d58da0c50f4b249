import Gxl.Proofs.Grammar.Acceptance

/-!
# Where errors are reported

Reading stops at the first token that no document goes on with.  `ViablePrefix` says what can still
become a document: it is stated with sources alone, and comes to the same as what the derivations
of the grammar start with (`viablePrefix_iff`).

There is one exception.  A word at the start of a member is looked at together with the token behind
it, and it is the word that is reported, though it could have been the key of a property.
-/

namespace Gxl

open Gxl.Derivation Rule

/-! ## Beginnings of documents -/

/-- The `phrase` of some source that is accepted. -/
def Accepted (v : Phrase) : Prop :=
  ∃ source ts t, parse source = .ok t ∧ tokenize source = .ok ts ∧ phrase ts = v

/-- A phrase that some document starts with: an `Accepted` phrase goes on with it. -/
def ViablePrefix (w : Phrase) : Prop :=
  ∃ v, Accepted v ∧ w <+: v

/-- The phrases of documents are those that the grammar derives: the yields of a
`Derivation.File`. -/
theorem accepted_iff {v : Phrase} : Accepted v ↔ ∃ d : File, d.yield = v := by
  constructor
  · rintro ⟨source, ts, t, ht, hts, rfl⟩
    obtain ⟨ts', d, hts', hd, -⟩ := exists_derivation ht
    obtain rfl : ts = ts' := by simpa [hts] using hts'
    exact ⟨d, hd⟩
  · rintro ⟨d, rfl⟩
    obtain ⟨source, ts, hts, hphrase⟩ := d.exists_source
    obtain ⟨t, ht, -⟩ := parse_of_derivation hts hphrase.symm
    exact ⟨source, ts, t, ht, hts, hphrase⟩

/-- The same for prefixes: some derivation has a yield that starts so. -/
theorem viablePrefix_iff {w : Phrase} : ViablePrefix w ↔ ∃ d u, File.yield d = w ++ u := by
  constructor
  · rintro ⟨v, hv, u, rfl⟩
    obtain ⟨d, hd⟩ := accepted_iff.1 hv
    exact ⟨d, u, hd⟩
  · rintro ⟨d, u, hd⟩
    exact ⟨d.yield, accepted_iff.2 ⟨d, rfl⟩, u, hd.symm⟩

/-- A prefix of a viable prefix is one. -/
theorem ViablePrefix.of_append {w u : Phrase} (h : ViablePrefix (w ++ u)) : ViablePrefix w := by
  obtain ⟨v, hv, hu⟩ := h
  exact ⟨v, hv, (List.prefix_append w u).trans hu⟩

/-- What the grammar calls `Viable` starts some document. -/
theorem viablePrefix_of_viable {w : Phrase}
    (h : Viable (Denotes File.tree) (fun d w => w = d.yield) w) : ViablePrefix w := by
  obtain ⟨d, -, u, -, hd⟩ := h
  exact viablePrefix_iff.2 ⟨d, u, hd.symm⟩

/-- Where a member may start (`AtMember`), every word may: it may be the key of a property. -/
theorem viablePrefix_of_atMember {w : Phrase} (h : AtMember w) (n : Name) :
    ViablePrefix (w ++ [n.symbol]) := by
  obtain ⟨tops, annots, name, refs, members, rfl⟩ := h
  -- the document that goes on with this property and ends there
  let value : Derivation.Literal := .string ⟨"", by decide⟩
  let item := Top.module annots name refs (members ++ [.property ⟨n, value⟩]) true
  refine viablePrefix_iff.2 ⟨⟨tops ++ [item]⟩,
    [.sign .equals, value.symbol, .sign .semicolon, .sign .braceClose, .sign .semicolon], ?_⟩
  simp [item, File.yield, Top.yield, braced, Derivation.Member.yield, Derivation.Property.yield,
    terminator]

/-! ## Tokens that no document goes on with -/

/-- No document goes on with the token `x` behind `w`; at the end of the text, no document has just
the tokens `w`. -/
def Unfit (w : List Token) (x : Token) : Prop :=
  if x.kind = .eof then ¬ Accepted (symbols w) else ¬ ViablePrefix (symbols (w ++ [x]))

/-- A token is `Unfit` where no reading (`Reads`) goes on with it. -/
theorem unfit_of_none {w : List Token} {x : Token}
    (h : ∀ v d w', Reads (fun _ => True) (fun (d : File) w => w = d.yield) (fun _ => At .eof) v d
      w' → ¬ symbols w ++ [x.symbol] <+: v) : Unfit w x := by
  -- a document is read from its own phrase with the end of the text behind it
  have hread : ∀ (d : File) (s : Symbol), s.kind = .eof → Reads (fun _ => True)
      (fun (d : File) w => w = d.yield) (fun _ => At .eof) (d.yield ++ [s]) d d.yield := by
    intro d s hs
    exact .intro d [s] trivial ⟨s, .inr hs, hs, rfl⟩
  unfold Unfit
  split
  · rename_i hx
    intro haccepted
    obtain ⟨d, hd⟩ := accepted_iff.1 haccepted
    exact h _ d _ (hread d x.symbol hx) ⟨[], by rw [hd, List.append_nil]⟩
  · intro hviable
    obtain ⟨d, u, hd⟩ := viablePrefix_iff.1 hviable
    refine h _ d _ (hread d ⟨.eof, ""⟩ rfl) ?_
    rw [hd, List.append_assoc, symbols_append]
    exact List.prefix_append _ _

/-! ## The place of an error -/

/-- The `significantTokens` of a source that start before an offset. -/
def tokensBefore (source : String) (offset : Nat) : List Token :=
  (significantTokens source).filter (·.span.start < offset)

/-- The tokens before the place of a token are those in front of it: `tokensBefore` finds `w`
again. -/
theorem tokensBefore_start {source : String} {w rest : List Token} {x : Token}
    (h : significantTokens source = w ++ x :: rest) : tokensBefore source x.span.start = w := by
  have hpair : (w ++ x :: rest).Pairwise fun t u => t.span.start < u.span.start := by
    rw [← h]
    exact (Cursor.pairwise_start_stream (.ofSource source)).2.filter _
  rw [List.pairwise_append, List.pairwise_cons] at hpair
  obtain ⟨-, ⟨hbehind, -⟩, hbefore⟩ := hpair
  rw [tokensBefore, h, List.filter_append, List.filter_eq_self.2, List.filter_eq_nil_iff.2]
  · exact List.append_nil w
  · rintro t (_ | ⟨_, ht⟩)
    · simp
    · simpa using Nat.le_of_lt (hbehind t ht)
  · intro t ht
    simpa using hbefore t ht x (by simp)

/-- A word that opens no member and is no key, at the start of a member (`AtMember`). -/
def StrayWord (w : List Token) (x : Token) (rest : List Token) : Prop :=
  AtMember (symbols w) ∧ x.kind = .ident ∧ x.text ∉ memberWords ∧ ∀ y ∈ rest.head?, y.kind ≠ .equals

/-- A word at the start of a member is not `Unfit` by itself. -/
theorem not_strayWord_of_unfit {source : String} {w rest : List Token} {x : Token}
    (hsplit : significantTokens source = w ++ x :: rest) (h : Unfit w x) :
    ¬ StrayWord w x rest := by
  rintro ⟨hmember, hkind, -, -⟩
  have hmem : x ∈ significantTokens source := by simp [hsplit]
  have hgenuine : x.symbol.genuine = true :=
    (Reader.genuine_or_eof_of_gives (Cursor.gives_stream _) x hmem).resolve_right (by simp [hkind])
  obtain ⟨n, hn⟩ := Name.exists_symbol hgenuine hkind
  have hviable := viablePrefix_of_atMember hmember n
  rw [Unfit, if_neg (by simp [hkind]), symbols_append, symbols_cons, ← hn] at h
  exact h hviable

/-- An error of the grammar stands at the first token that is `Unfit`, a `StrayWord` aside. -/
theorem parse_error_cases {source : String} {e : ParseError}
    (h : parse source = .error (.parse e)) :
    ∃ w x rest, significantTokens source = w ++ x :: rest ∧ x.span.start = e.position.offset ∧
      ViablePrefix (symbols w) ∧ (Unfit w x ∨
        StrayWord w x rest ∧ ∃ y rest', rest = y :: rest' ∧ Unfit (w ++ [x]) y) := by
  obtain ⟨r, hout⟩ := outcome_parse source
  rw [h] at hout
  cases hout with
  | @refused _ w rest x expected split viable none =>
    exact ⟨w, x, rest, split, rfl, viablePrefix_of_viable viable, .inl (unfit_of_none none)⟩
  | @late _ w rest x y expected split viable edge none =>
    obtain ⟨hmember, hkind, hword, hequals⟩ := edge
    refine ⟨w, x, y :: rest, split, rfl, viablePrefix_of_viable viable, .inr ⟨?_, y, rest, rfl, ?_⟩⟩
    · exact ⟨hmember, hkind, hword, by simpa using hequals⟩
    · exact unfit_of_none (by simpa using none)

/-- Before a fault of the characters, an `Unfit` token is the end of what may start a document. -/
theorem not_viablePrefix_of_unfit {source : String} {e : LexError} {w rest : List Token} {x : Token}
    (hfault : lexFault source = some e) (hsplit : significantTokens source = w ++ x :: rest)
    (h : Unfit w x) : ¬ ViablePrefix (symbols (significantTokens source)) := by
  intro hviable
  have hx : x.kind ≠ .eof := (Cursor.significant_of_fault hfault).1 x (by
    rw [← significantTokens, hsplit]
    simp)
  rw [Unfit, if_neg hx] at h
  rw [hsplit, List.append_cons, symbols_append] at hviable
  exact h hviable.of_append

/-- A fault of the characters is reported by `parse` exactly if what stands before it starts a
document. -/
theorem parse_eq_lex_iff {source : String} {e : LexError} (h : tokenize source = .error e) :
    parse source = .error (.lex e) ↔ ViablePrefix (symbols (significantTokens source)) := by
  have hfault := lexFault_of_tokenize h
  obtain ⟨r, hout⟩ := outcome_parse source
  constructor
  · intro hparse
    rw [hparse] at hout
    cases hout with
    | starved _ viable => exact viablePrefix_of_viable viable
  · intro hviable
    cases hparse : parse source with
    | ok t =>
      obtain ⟨ts, -, hts, -⟩ := exists_derivation hparse
      rw [h] at hts
      simp at hts
    | error err =>
      cases err with
      | lex e' =>
        rw [hparse] at hout
        cases hout with
        | starved faulty _ => rw [Option.some.inj (hfault.symm.trans faulty)]
      | parse e' =>
        obtain ⟨w, x, rest, hsplit, -, -, hunfit | ⟨-, y, rest', rfl, hunfit⟩⟩ :=
          parse_error_cases hparse
        · exact absurd hviable (not_viablePrefix_of_unfit hfault hsplit hunfit)
        · rw [List.append_cons] at hsplit
          exact absurd hviable (not_viablePrefix_of_unfit hfault hsplit hunfit)

/-- Reading stops at the first fault.  What stands before the token that is reported is a
`ViablePrefix`, and no document goes on with the token (`Unfit`); unless it is a `StrayWord`, and
then no document goes on with the token behind it.  A fault of the characters is reported exactly if
what stands before it starts some document. -/
theorem parse_stops_at_first_fault (source : String) :
    (∀ e, parse source = .error (.parse e) →
      ∃ w x rest, significantTokens source = w ++ x :: rest ∧
        w = tokensBefore source e.position.offset ∧ x.span.start = e.position.offset ∧
        ViablePrefix (symbols w) ∧ (¬ StrayWord w x rest → Unfit w x) ∧
        (StrayWord w x rest → ∃ y rest', rest = y :: rest' ∧ Unfit (w ++ [x]) y)) ∧
    ∀ e, tokenize source = .error e →
      (parse source = .error (.lex e) ↔ ViablePrefix (symbols (significantTokens source))) := by
  refine ⟨fun e he => ?_, fun e he => parse_eq_lex_iff he⟩
  obtain ⟨w, x, rest, hsplit, hstart, hviable, hunfit⟩ := parse_error_cases he
  refine ⟨w, x, rest, hsplit, ?_, hstart, hviable, ?_, ?_⟩
  · rw [← hstart, tokensBefore_start hsplit]
  · intro hstray
    exact hunfit.resolve_right fun h => hstray h.1
  · intro hstray
    rcases hunfit with hunfit | ⟨-, hunfit⟩
    · exact absurd hstray (not_strayWord_of_unfit hsplit hunfit)
    · exact hunfit

end Gxl
