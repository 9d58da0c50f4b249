import Gxl.Proofs.Grammar.FirstFault

/-!
# What errors expect

An error of the grammar names the alternatives to the token that it is about.  None of them is made
up: behind the tokens before the error, some document goes on with each one
(`parse_expects_viable`).

The contract of the rules says so for each place where a rule fails (`Rule.Offers`), with the
alternatives that the rule itself does not know of: the brace that closes a block around an entry,
and one more annotation.  For whole documents nothing is left that they could stem from but the
document.
-/

namespace Gxl

open Gxl.Derivation Rule

/-- An error of the grammar offers its alternatives behind the tokens before it (`Offers`). -/
theorem offers_of_error {source : String} {e : ParseError}
    (h : parse source = .error (.parse e)) :
    Offers (Denotes File.tree) (fun d w => w = d.yield) (fun w m => AtMember w ∧ Strays m)
      (symbols (tokensBefore source e.position.offset)) e.expected := by
  obtain ⟨r, hout⟩ := outcome_parse source
  rw [h] at hout
  cases hout with
  | @refused _ w rest x expected split _ _ offers =>
    show Offers _ _ _ (symbols (tokensBefore source x.span.start)) expected
    rwa [tokensBefore_start split]
  | @late _ w rest x y expected split _ _ _ offers =>
    show Offers _ _ _ (symbols (tokensBefore source x.span.start)) expected
    rwa [tokensBefore_start split]

/-- Around a document there is nothing, so what is `Offered` there some document goes on with. -/
theorem viablePrefix_of_offered {w : Phrase} {a : Expected}
    (h : Offered (Denotes File.tree) (fun d w => w = d.yield) (fun w m => AtMember w ∧ Strays m)
      w a) : ∃ u, a.Fits u ∧ ViablePrefix (w ++ u) := by
  cases h with
  | outer hfalse => exact hfalse.2.elim
  | inner u fits viable => exact ⟨u, fits, viablePrefix_of_viable viable⟩

/-- An error of the grammar expects something, never just a command, and nothing that could not
stand there: behind the tokens before the error, some document goes on with each alternative, so
that they make a `ViablePrefix`. -/
theorem parse_expects_viable {source : String} {e : ParseError}
    (h : parse source = .error (.parse e)) :
    e.expected ≠ [] ∧ e.expected ≠ [.item "command"] ∧
      ∀ a ∈ e.expected, ∃ u, a.Fits u ∧
        ViablePrefix (symbols (tokensBefore source e.position.offset) ++ u) := by
  have hoffers := offers_of_error h
  refine ⟨hoffers.ne_nil, hoffers.ne_command, ?_⟩
  intro a ha
  exact viablePrefix_of_offered (hoffers.each a ha)

/-- A source with a bracket where an entry of an environment, or its end, should be: four
alternatives. -/
def strayBracket : String :=
  "mod m \x7b env e \x7b a = 1; ]"

theorem parse_expects_viable_strayBracket :
    ∃ e, parse strayBracket = .error (.parse e) ∧
      e.expected = [.item "property", .item "command", .item "gx.vars block",
        .token .braceClose] ∧
      ∀ a ∈ e.expected, ∃ u, a.Fits u ∧
        ViablePrefix (symbols (tokensBefore strayBracket e.position.offset) ++ u) := by
  have h : parse strayBracket = .error (.parse (.ofToken ⟨.bracketClose, "]", ⟨23, 24, 1, 24⟩⟩
      [.item "property", .item "command", .item "gx.vars block", .token .braceClose])) := by
    decide +kernel
  exact ⟨_, h, rfl, (parse_expects_viable h).2.2⟩

end Gxl
