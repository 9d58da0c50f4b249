import Gxl.Proofs.Grammar.Documents
import Gxl.Proofs.Grammar.Spelling

/-!
# What is accepted

`parse` accepts a source exactly if its symbols derive from the grammar, and the tree that it builds
is the one that the derivation denotes.  No phrase has two derivations.

All of this is read off the one contract that the rule of documents meets, for the tokens that a
source text gives.
-/

namespace Gxl

open Gxl.Derivation Rule

/-- The tokens that the grammar sees of a source: those of its cursor that are `significant`. -/
def significantTokens (source : String) : List Token :=
  (Cursor.ofSource source).significant

/-- The fault that ends the tokens of a source, if there is one, as its `stream` gives it. -/
def lexFault (source : String) : Option LexError :=
  (Cursor.ofSource source).stream.2

/-- What the contract of documents (`Outcome`) says about reading a source. -/
theorem outcome_parse (source : String) :
    ∃ r : Reader Cursor, Outcome (fun _ => True) (Denotes File.tree) (fun d w => w = d.yield)
      (fun _ => At .eof) (fun w m => AtMember w ∧ Strays m) (significantTokens source)
      (lexFault source) (Reader.ofSource source).size (parse source, r) :=
  ⟨_, (parses_document _).outcome (Reader.holds_ofFeed (Cursor.gives_stream _)) trivial⟩

/-- The tokens of a source that has no fault: the `significantTokens` are the symbols of its
`phrase`, and the end of the text. -/
theorem significantTokens_of_tokenize {source : String} {ts : List Token}
    (h : tokenize source = .ok ts) :
    lexFault source = none ∧ ∃ code x, significantTokens source = code ++ [x] ∧ x.kind = .eof ∧
      (∀ t ∈ code, t.kind ≠ .eof) ∧ symbols code = phrase ts := by
  rw [tokenize, Cursor.toList_eq_stream] at h
  split at h
  · rename_i hfault
    obtain rfl := Except.ok.inj h
    exact ⟨hfault, Cursor.significant_of_no_fault hfault⟩
  · simp at h

/-- Where there is no fault, `tokenize` lists the tokens of the stream. -/
theorem tokenize_of_no_fault {source : String} (h : lexFault source = none) :
    tokenize source = .ok (Cursor.ofSource source).stream.1 := by
  rw [tokenize, Cursor.toList_eq_stream, ← lexFault, h]

/-- An error of `tokenize` is the fault of the source. -/
theorem lexFault_of_tokenize {source : String} {e : LexError} (h : tokenize source = .error e) :
    lexFault source = some e := by
  rw [tokenize, Cursor.toList_eq_stream, ← lexFault] at h
  split at h
  · simp at h
  · rename_i e' hfault
    rw [hfault, Except.error.inj h]

/-- The end of the text is the last of the `significantTokens`, and then there is no fault and all
tokens of the source but for its comments stand before it. -/
theorem tokens_of_eof {source : String} {w rest : List Token} {x : Token}
    (hsplit : significantTokens source = w ++ x :: rest) (hx : x.kind = .eof) :
    ∃ ts, tokenize source = .ok ts ∧
      w = ts.filter fun t => t.kind != .comment && t.kind != .eof := by
  cases hfault : lexFault source with
  | some e =>
    have hnone := (Cursor.significant_of_fault hfault).1 x
    exact absurd hx (hnone (by rw [← significantTokens, hsplit]; simp))
  | none =>
    refine ⟨_, tokenize_of_no_fault hfault, ?_⟩
    obtain ⟨code, y, hcode, hy, hne, -⟩ := Cursor.significant_of_no_fault hfault
    -- the end of the text is only at the end, so the two ways to split the tokens are the same
    have hboth : w ++ x :: rest = code ++ [y] := hsplit.symm.trans hcode
    have hx : x ∉ code := fun hmem => hne x hmem hx
    have hw : w = code := by
      rcases List.append_eq_append_iff.1 hboth with ⟨u, hu, hxu⟩ | ⟨u, rfl, hxu⟩
      · cases u with
        | nil => rw [hu, List.append_nil]
        | cons z u =>
          obtain ⟨rfl, -⟩ := List.cons.inj hxu
          exact absurd (hu ▸ by simp) hx
      · cases u with
        | nil => rw [List.append_nil]
        | cons z u => simp at hxu
    have hfilter : (code ++ [y]).filter (·.kind != .eof) = code := by
      rw [List.filter_append, List.filter_eq_self.2]
      · simp [hy]
      · simpa using hne
    rw [hw, ← hfilter, ← hcode, Cursor.significant, List.filter_filter]
    simp only [Bool.and_comm]

/-- Where the end of the text comes next, the tokens before it are the `phrase` of the source. -/
theorem tokenize_of_at_eof {source : String} {w rest : List Token}
    (hsplit : significantTokens source = w ++ rest) (heof : At .eof (symbols rest)) :
    ∃ ts, tokenize source = .ok ts ∧ symbols w = phrase ts := by
  obtain ⟨s, -, hkind, hs⟩ := heof
  cases rest with
  | nil => exact absurd hs not_starts_nil
  | cons x rest =>
    obtain rfl := starts_cons.1 hs
    obtain ⟨ts, hts, hw⟩ := tokens_of_eof hsplit hkind
    exact ⟨ts, hts, congrArg symbols hw⟩

/-- A prefix of the tokens is a prefix of the `symbols`. -/
theorem prefix_symbols {ts w rest : List Token} (h : ts = w ++ rest) (n : Nat) :
    symbols w ++ (symbols rest).take n <+: symbols ts := by
  rw [h, symbols_append, List.prefix_append_right_inj]
  exact List.take_prefix n _

/-! ## Soundness and completeness -/

/-- A source that is accepted derives from the grammar: its `phrase` is the yield of a derivation
that denotes its tree. -/
theorem exists_derivation {source : String} {t : Document} (h : parse source = .ok t) :
    ∃ ts d, tokenize source = .ok ts ∧ File.yield d = phrase ts ∧ erase t = d.tree := by
  obtain ⟨r, hout⟩ := outcome_parse source
  rw [h] at hout
  cases hout with
  | @built _ _ d w rest split _ _ denotes derives follows _ =>
    obtain ⟨ts, hts, hw⟩ := tokenize_of_at_eof split follows
    exact ⟨ts, d, hts, derives.symm.trans hw, denotes⟩

/-- A source whose `phrase` derives from the grammar is accepted, with the tree of the derivation,
and there is no other derivation. -/
theorem parse_of_derivation {source : String} {ts : List Token} {d : File}
    (hts : tokenize source = .ok ts) (hd : d.yield = phrase ts) :
    ∃ t, parse source = .ok t ∧ erase t = d.tree ∧ ∀ d', File.yield d' = phrase ts → d' = d := by
  obtain ⟨hfault, code, x, hcode, hx, -, hphrase⟩ := significantTokens_of_tokenize hts
  -- every derivation of the phrase is a reading of the tokens, so none of the ways to fail is left
  have hreads : ∀ d', File.yield d' = phrase ts → Reads (fun _ => True) (fun d w => w = d.yield)
      (fun _ => At .eof) (symbols (significantTokens source)) d' d'.yield := by
    intro d' hd'
    refine ⟨[x.symbol], ?_, trivial, rfl, x.symbol, .inr hx, hx, rfl⟩
    rw [hcode, symbols_append, hphrase, hd']
    rfl
  obtain ⟨r, hout⟩ := outcome_parse source
  generalize parse source = result at hout
  cases hout with
  | @built t _ b w rest split _ _ denotes _ _ only =>
    have hagree := prefix_symbols split 1
    obtain ⟨rfl, -⟩ := only _ d _ (hreads d hd) hagree
    refine ⟨t, rfl, denotes, ?_⟩
    intro d' hd'
    exact (only _ d' _ (hreads d' hd') hagree).1
  | @refused _ w rest y _ split _ none =>
    exact absurd (prefix_symbols split 1) (none _ d _ (hreads d hd))
  | @late _ w rest y z _ split _ _ none =>
    exact absurd (prefix_symbols split 2) (none _ d _ (hreads d hd))
  | starved faulty _ =>
    rw [hfault] at faulty
    simp at faulty

/-- No phrase has two derivations, as the parser would have to give the tree of both. -/
theorem Derivation.File.yield_injective {d d' : File} (h : d.yield = d'.yield) : d = d' := by
  obtain ⟨source, ts, hts, hphrase⟩ := d'.exists_source
  obtain ⟨t, -, -, honly⟩ := parse_of_derivation hts hphrase.symm
  exact honly d (h.trans hphrase.symm)

/-- The sources that are accepted are those whose `phrase` derives from the grammar, the tree of
each is the one that its derivation denotes, and no phrase has two derivations. -/
theorem parse_iff_derives (source : String) (e : Document) :
    ((∃ t, parse source = .ok t ∧ erase t = e) ↔
      ∃ ts d, tokenize source = .ok ts ∧ File.yield d = phrase ts ∧ d.tree = e) ∧
    Function.Injective File.yield := by
  refine ⟨⟨?_, ?_⟩, fun _ _ => File.yield_injective⟩
  · rintro ⟨t, ht, rfl⟩
    obtain ⟨ts, d, hts, hd, htree⟩ := exists_derivation ht
    exact ⟨ts, d, hts, hd, htree.symm⟩
  · rintro ⟨ts, d, hts, hd, rfl⟩
    obtain ⟨t, ht, htree, -⟩ := parse_of_derivation hts hd
    exact ⟨t, ht, htree⟩

end Gxl
