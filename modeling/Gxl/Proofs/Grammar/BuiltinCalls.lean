import Gxl.Proofs.Grammar.FirstFault
import Gxl.Proofs.Token.Builtins

/-!
# Calls of builtin commands

A token that names a builtin command is followed by an opening parenthesis, in the text and among
the tokens.  So the rule of commands, where it meets such a token, finds the command and the
parenthesis, and no error is ever reported at the token behind the name (`builtin_exact`).
-/

namespace Gxl

open Gxl.Derivation Rule

/-- In a phrase that is `Spellable`, a parenthesis opens behind the name of a builtin command. -/
theorem Spellable.parenOpen {afterDot : Bool} {w v : Phrase} {s : Symbol}
    (h : Spellable afterDot (w ++ s :: v)) (hs : s.kind = .builtin) :
    v.head? = some (.sign .parenOpen) := by
  induction w generalizing afterDot with
  | nil => exact (h.2.1 hs).2
  | cons r w ih => exact ih h.2.2

/-- A document that has gone on to the name of a builtin command goes on to a parenthesis: no other
`ViablePrefix` goes on there. -/
theorem ViablePrefix.parenOpen {w : Phrase} {s : Symbol} (h : ViablePrefix (w ++ [s]))
    (hs : s.kind = .builtin) : ViablePrefix (w ++ [s, .sign .parenOpen]) := by
  obtain ⟨d, u, hd⟩ := viablePrefix_iff.1 h
  have hspellable := d.spellable
  rw [hd, List.append_assoc, List.singleton_append] at hspellable
  obtain ⟨u, rfl⟩ := List.head?_eq_some_iff.1 (hspellable.parenOpen hs)
  exact viablePrefix_iff.2 ⟨d, u, by rw [hd]; simp⟩

/-- A token of a kind is taken by `expect` where it has to stand. -/
theorem Rule.run_expect {σ : Type} [Feed σ] {r : Reader σ} {x : Token} {ts : List Token}
    {fault : Option LexError} (h : r.Holds (x :: ts) fault) (hx : x.symbol.genuine = true) :
    ∃ r', (expect x.kind).run r = (.ok x, r') ∧ r'.Holds ts fault := by
  obtain ⟨r₁, hpeek, hr₁, -⟩ := Reader.peek_of_cons h
  obtain ⟨r₂, hadvance, hr₂, -⟩ := Reader.advance_of_holds hr₁ hx
  have hpeek : peek.run r = (.ok x, r₁) := hpeek
  have hadvance : advance.run r₁ = (.ok x, r₂) := hadvance
  refine ⟨r₂, ?_, hr₂⟩
  rw [expect, Parses.run_eat_bind, run_bind_of_ok hpeek, if_pos rfl, run_bind_of_ok hadvance]
  rfl

/-- Behind the name of a builtin command the rule of commands takes the parenthesis, by `advance`
and `expect`. -/
theorem Rule.run_advance_expect {σ : Type} [Feed σ] {r : Reader σ} {t u : Token} {ts : List Token}
    {fault : Option LexError} (h : r.Holds (t :: u :: ts) fault) (ht : t.symbol.genuine = true)
    (hu : u.symbol.genuine = true) :
    ∃ r', (advance >>= fun _ => expect u.kind).run r = (.ok u, r') := by
  obtain ⟨r₁, hadvance, hr₁, -⟩ := Reader.advance_of_holds h ht
  obtain ⟨r₂, hexpect, -⟩ := run_expect hr₁ hu
  have hadvance : advance.run r = (.ok t, r₁) := hadvance
  exact ⟨r₂, by rw [run_bind_of_ok hadvance, hexpect]⟩

/-- No error is reported at the parenthesis `u` behind the name `t` of a builtin command. -/
theorem parse_error_ne_behind_builtin {source : String} {w more : List Token} {t u : Token}
    {e : ParseError} (hsplit : significantTokens source = w ++ t :: u :: more)
    (ht : t.kind = .builtin) (hu : u.symbol = .sign .parenOpen)
    (h : parse source = .error (.parse e)) : e.position.offset ≠ u.span.start := by
  intro hoffset
  obtain ⟨w', x, rest, hsplit', hstart, hviable, hfault⟩ := parse_error_cases h
  -- the place of the error tells the token it is about
  rw [List.append_cons] at hsplit
  have hw : w' = w ++ [t] := by
    rw [← tokensBefore_start hsplit', ← tokensBefore_start hsplit, hstart, hoffset]
  subst hw
  obtain ⟨rfl, -⟩ : x = u ∧ rest = more :=
    List.cons.inj (List.append_cancel_left (hsplit'.symm.trans hsplit))
  rcases hfault with hunfit | ⟨⟨-, hkind, -⟩, -⟩
  · rw [symbols_append] at hviable
    have hnext := hviable.parenOpen ht
    rw [Unfit, if_neg (by simp [← Token.symbol_kind, hu])] at hunfit
    apply hunfit
    simpa [hu] using hnext
  · rw [← Token.symbol_kind, hu] at hkind
    simp at hkind

/-- A token names a builtin command exactly if no dot stands before it, comments aside, and the
source reads `gx.` and a word there, which together are such a name, and then, behind blanks and
comments, an opening parenthesis.  The text of the token is that name, and the next token that is no
comment is the parenthesis.  So the rule of commands always finds the command of the token, the
parenthesis behind it is always taken, and no error is ever reported there.

This is said of the tokens up to the first fault.  All that is handed out behind a fault is the end
of the text, where nothing is left to be read. -/
theorem builtin_exact (source : String) :
    (∀ before t after, (Cursor.ofSource source).stream.1 = before ++ t :: after →
      (t.kind = .builtin ↔
        (∀ u ∈ (before.filter (·.kind != .comment)).getLast?, u.kind ≠ .dot) ∧
          ∃ cs w rest, textFrom? source t.span.start = some cs ∧ Lexeme.CallsBuiltin cs w rest) ∧
      (t.kind = .builtin →
        (∃ cs w rest, textFrom? source t.span.start = some cs ∧ Lexeme.CallsBuiltin cs w rest ∧
          t.text = "gx." ++ String.ofList w) ∧
        (∃ b, Builtin.ofName? t.text = some b) ∧
        ∃ u more, after.filter (·.kind != .comment) = u :: more ∧ u.kind = .parenOpen ∧
          (∀ r : Reader Cursor, r.Holds (t :: u :: more) (lexFault source) →
            ∃ r', (advance >>= fun _ => expect .parenOpen).run r = (.ok u, r')) ∧
          ∀ e, parse source = .error (.parse e) → e.position.offset ≠ u.span.start)) ∧
    ∀ n t, .ok t ∈ (Cursor.ofSource source).steps n → t ∈ (Cursor.ofSource source).stream.1 ∨
      (t.kind = .eof ∧ textFrom? source t.span.start = some []) := by
  refine ⟨fun before t after h => ⟨Cursor.kind_of_stream h, fun ht => ?_⟩,
    fun n t => Cursor.mem_stream_or_eof⟩
  obtain ⟨hname, u, more, hmore, hu⟩ := Cursor.builtin_of_stream h ht
  have hsplit : significantTokens source
      = before.filter (·.kind != .comment) ++ t :: u :: more := by
    rw [significantTokens, Cursor.significant, h, List.filter_append,
      List.filter_cons_of_pos (by simp [ht]), hmore]
  have hgenuine : ∀ x ∈ significantTokens source, x.kind ≠ .eof → x.symbol.genuine = true :=
    fun x hx hne =>
      (Reader.genuine_or_eof_of_gives (Cursor.gives_stream _) x hx).resolve_right hne
  have htgenuine := hgenuine t (by simp [hsplit]) (by simp [ht])
  have hugenuine := hgenuine u (by simp [hsplit]) (by simp [hu])
  obtain ⟨b, hb, -⟩ := exists_builtin (.inl htgenuine) ht
  refine ⟨hname, ⟨b, hb⟩, u, more, hmore, hu, fun r hr => ?_, fun e he => ?_⟩
  · rw [← hu]
    exact run_advance_expect hr htgenuine hugenuine
  · have hsign := Symbol.eq_sign_of_genuine hugenuine (by simp [hu, Kind.spelling])
    rw [Token.symbol_kind, hu] at hsign
    exact parse_error_ne_behind_builtin hsplit ht hsign he

/-- A source that calls `gx.cmd`, with comments before and behind the name. -/
def callBehindComments : String :=
  "a # .\n gx.cmd#x\n("

/-- The dot in the first comment does not count, and the parenthesis is found behind the second:
`CallsBuiltin` skips comments. -/
theorem builtin_exact_callBehindComments :
    (∃ cs w rest, textFrom? callBehindComments 7 = some cs ∧ Lexeme.CallsBuiltin cs w rest ∧
      "gx.cmd" = "gx." ++ String.ofList w) ∧
    ∀ e, parse callBehindComments = .error (.parse e) → e.position.offset ≠ 16 := by
  have hstream : (Cursor.ofSource callBehindComments).stream.1
      = [⟨.ident, "a", ⟨0, 1, 1, 1⟩⟩, ⟨.comment, "# .", ⟨2, 5, 1, 3⟩⟩]
        ++ ⟨.builtin, "gx.cmd", ⟨7, 13, 2, 2⟩⟩
        :: [⟨.comment, "#x", ⟨13, 15, 2, 8⟩⟩, ⟨.parenOpen, "(", ⟨16, 17, 3, 1⟩⟩,
          ⟨.eof, "", ⟨17, 17, 3, 2⟩⟩] := by
    decide +kernel
  obtain ⟨hname, -, u, more, hmore, -, -, hplace⟩ :=
    ((builtin_exact callBehindComments).1 _ _ _ hstream).2 rfl
  obtain ⟨rfl, -⟩ := List.cons.inj hmore
  exact ⟨hname, hplace⟩

end Gxl
