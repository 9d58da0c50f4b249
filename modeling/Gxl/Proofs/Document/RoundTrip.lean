import Gxl.Proofs.Document.Shape
import Gxl.Proofs.Grammar.Acceptance
import Gxl.Proofs.Grammar.Printing
import Gxl.Proofs.Token.Lexes

/-!
# Printing and reading back

A source that is accepted can be laid out canonically and read back: the tree is the same up to its
spans, and the symbols are the same up to the optional semicolons.

Both follow from one fact: the layout of a tree spells the phrase of the derivation that the tree
came from, with all of its semicolons (`exists_derivation_print`).
-/

namespace Gxl

open Gxl.Derivation

/-- The tokens of a source without its comments: its `phrase`, and the end of the text. -/
theorem symbols_of_tokenize {source : String} {ts : List Token} (h : tokenize source = .ok ts) :
    symbols (ts.filter (·.kind != .comment)) = phrase ts ++ [⟨.eof, ""⟩] := by
  obtain ⟨hfault, code, x, hcode, hx, -, hphrase⟩ := significantTokens_of_tokenize h
  obtain rfl : _ = ts := Except.ok.inj ((tokenize_of_no_fault hfault).symm.trans h)
  have hmem : x ∈ (Cursor.ofSource source).significant := by
    rw [← significantTokens, hcode]
    simp
  have hsymbol : x.symbol = ⟨.eof, ""⟩ := by
    rw [Token.symbol, hx, Cursor.text_of_mem_stream (List.mem_of_mem_filter hmem) hx]
  rw [← Cursor.significant, ← significantTokens, hcode, symbols_append, hphrase, symbols_cons,
    hsymbol, symbols_nil]

/-- The symbols of an accepted source are the `yield` of a derivation, which denotes its tree. -/
theorem exists_lexes_of_parse {source : String} {t : Document} (h : parse source = .ok t) :
    ∃ d, Lexes false source.toList (File.yield d ++ [⟨.eof, ""⟩]) ∧ erase t = d.tree := by
  obtain ⟨ts, d, hts, hd, htree⟩ := exists_derivation h
  obtain ⟨hfault, -⟩ := significantTokens_of_tokenize hts
  have hlexes := Cursor.lexes_stream (c := Cursor.ofSource source) hfault
  obtain rfl := Except.ok.inj ((tokenize_of_no_fault hfault).symm.trans hts)
  rw [Cursor.significant, symbols_of_tokenize hts, ← hd] at hlexes
  exact ⟨d, hlexes, htree⟩

/-- A source whose symbols are the `yield` of a derivation is accepted, with the tree of the
derivation. -/
theorem parse_of_lexes {source : String} {d : File}
    (h : Lexes false source.toList (d.yield ++ [⟨.eof, ""⟩])) :
    ∃ t, parse source = .ok t ∧ erase t = d.tree := by
  obtain ⟨hfault, hsymbols⟩ := h.stream .start
  have hts : tokenize source = .ok (Cursor.ofSource source).stream.1 := tokenize_of_no_fault hfault
  have hphrase := (symbols_of_tokenize hts).symm.trans hsymbols
  obtain ⟨t, ht, htree, -⟩ := parse_of_derivation hts (List.append_cancel_right hphrase).symm
  exact ⟨t, ht, htree⟩

/-- The layout of an accepted source has the symbols of its derivation with all semicolons, that is,
of `d.full`. -/
theorem exists_derivation_print {source : String} {t : Document} (h : parse source = .ok t) :
    ∃ ts d, tokenize source = .ok ts ∧ File.yield d = phrase ts ∧ erase t = d.tree ∧
      ∀ indent, ∃ ts', tokenize (t.print indent) = .ok ts' ∧ phrase ts' = d.full.yield := by
  obtain ⟨ts, d, hts, hd, htree⟩ := exists_derivation h
  refine ⟨ts, d, hts, hd, htree, fun indent => ?_⟩
  have hprint : t.print indent = d.tree.print indent := by
    rw [← htree]
    exact (Document.print_mapSpans indent t).symm
  rw [hprint]
  exact tokenize_of_spells (d.spells_print indent)

/-- A module with a call that spells a builtin command, a string over two lines, an empty block of
variables, a word with a meaning as a key, and only one of its optional semicolons. -/
def sampleModule : String :=
  "mod m \x7b env e \x7b gx .echo(x: \"a\nb\"); gx.vars \x7b \x7d; \x7d flow = 1.5; # end\n \x7d"

/-- The document `sampleModule` is accepted. -/
theorem exists_parse_sampleModule : ∃ t, parse sampleModule = .ok t := by
  have hok : (parse sampleModule).toBool = true := by decide +kernel
  cases h : parse sampleModule with
  | ok t => exact ⟨t, rfl⟩
  | error e =>
    rw [h] at hok
    simp [Except.toBool] at hok

/-- Laid out by `Document.print` with any indentation and read back, an accepted source gives the
same tree. -/
theorem parse_print {source : String} {t : Document} (h : parse source = .ok t) (indent : Nat) :
    ∃ t', parse (t.print indent) = .ok t' ∧ Document.sameTree t t' = true ∧ erase t' = erase t := by
  obtain ⟨ts, d, -, -, htree, hprint⟩ := exists_derivation_print h
  obtain ⟨ts', hts', hphrase⟩ := hprint indent
  obtain ⟨t', ht', htree', -⟩ := parse_of_derivation hts' hphrase.symm
  have herase : erase t' = erase t := by
    rw [htree', htree, File.tree_full]
  exact ⟨t', ht', Document.sameTree_of_erase_eq herase.symm, herase⟩

theorem parse_print_sampleModule :
    ∃ t, parse sampleModule = .ok t ∧ ∃ t', parse (t.print 2) = .ok t' ∧
      Document.sameTree t t' = true ∧ erase t' = erase t := by
  obtain ⟨t, ht⟩ := exists_parse_sampleModule
  exact ⟨t, ht, parse_print ht 2⟩

/-- Laying out an accepted source, with any indentation, keeps every symbol but for the optional
semicolons, which are all put in (`normalise`). -/
theorem symbols_print {source : String} {t : Document} (h : parse source = .ok t) (indent : Nat) :
    ∃ ts ts', tokenize source = .ok ts ∧ tokenize (t.print indent) = .ok ts' ∧
      symbols (ts'.filter (·.kind != .comment))
        = normalise (symbols (ts.filter (·.kind != .comment))) := by
  obtain ⟨ts, d, hts, hd, -, hprint⟩ := exists_derivation_print h
  obtain ⟨ts', hts', hphrase⟩ := hprint indent
  refine ⟨ts, ts', hts, hts', ?_⟩
  rw [symbols_of_tokenize hts, symbols_of_tokenize hts', hphrase, ← hd, normalise,
    normaliseFrom_concat (by simp) (by simp)]
  exact congrArg (· ++ _) d.normalise_yield.symm

theorem symbols_print_sampleModule :
    ∃ t, parse sampleModule = .ok t ∧ ∃ ts ts', tokenize sampleModule = .ok ts ∧
      tokenize (t.print 0) = .ok ts' ∧ symbols (ts'.filter (·.kind != .comment))
        = normalise (symbols (ts.filter (·.kind != .comment))) := by
  obtain ⟨t, ht⟩ := exists_parse_sampleModule
  exact ⟨t, ht, symbols_print ht 0⟩

end Gxl
