import Gxl.Proofs.Token.Progress

/-!
# Reading by offsets

A cursor carries the text that is left to it.  This module reads the same tokens from a source with
nothing in hand but a place in it: the text is got at by cutting the source at byte offsets, and the
text of a token by cutting it out.  Every cut may be refused, because an offset lies inside a
character or past the end, because two offsets are in the wrong order, or because bytes are taken
off an offset that has not so many.

Nothing is ever refused.  A pointer into a source answers as the cursor that stands there
(`Pointer.next?_eq`), and does so however often it is asked (`Pointer.answers?_eq`).  What carries
the proof from one place to the next is `Cursor.In`: the source goes on, from the offset of the
cursor, with the text that is left to it.
-/

namespace Gxl

/-! ## Cuts -/

/-- The offset `bytes` before another.  There is none before the start of a text. -/
def Text.back? (offset bytes : Nat) : Option Nat :=
  if bytes ≤ offset then some (offset - bytes) else none

/-- Going back over what an offset has been increased by gives it again, and `back?` refuses
nothing. -/
theorem Text.back?_add (offset bytes : Nat) : back? (offset + bytes) bytes = some offset := by
  rw [back?, if_pos (Nat.le_add_left _ _), Nat.add_sub_cancel]

/-- The two parts that `splitBytes?` gives make up the text, and the first has the size that was
asked for. -/
theorem Text.eq_append_of_splitBytes? {n : Nat} {cs front back : List Char}
    (h : splitBytes? n cs = some (front, back)) : cs = front ++ back ∧ byteSize front = n := by
  fun_induction splitBytes? n cs generalizing front with
  | case1 cs =>
    obtain ⟨rfl, rfl⟩ : [] = front ∧ cs = back := by simpa using h
    exact ⟨rfl, rfl⟩
  | case2 => simp at h
  | case3 n c cs hle ih =>
    obtain ⟨⟨taken, rest⟩, hsplit, hcut⟩ := Option.map_eq_some_iff.1 h
    obtain ⟨rfl, rfl⟩ := Prod.mk.inj hcut
    obtain ⟨rfl, hsize⟩ := ih hsplit
    exact ⟨rfl, by rw [byteSize_cons, hsize]; omega⟩
  | case4 => simp at h

variable {source : String} {p : Position}

/-- A text that `textFrom?` gives stands behind a front part of the size `offset`. -/
theorem textFrom?_eq_some_iff {offset : Nat} {rest : List Char} :
    textFrom? source offset = some rest ↔
      ∃ front, source.toList = front ++ rest ∧ Text.byteSize front = offset := by
  constructor
  · intro h
    obtain ⟨⟨front, rest⟩, hsplit, rfl⟩ := Option.map_eq_some_iff.1 h
    exact ⟨front, Text.eq_append_of_splitBytes? hsplit⟩
  · rintro ⟨front, hsource, rfl⟩
    rw [textFrom?, hsource, Text.splitBytes?_append, Option.map_some]

/-- Inside a character, and past the end, there is no cut. -/
example : textFrom? "é" 1 = none ∧ textFrom? "é" 3 = none := by decide

/-- Behind what is read, the source goes on with what is left: `textFrom?` gives `back` after
`front`. -/
theorem textFrom?_after {front back : List Char}
    (h : textFrom? source p.offset = some (front ++ back)) :
    textFrom? source (p.after front).offset = some back := by
  obtain ⟨before, hsource, hsize⟩ := textFrom?_eq_some_iff.1 h
  refine textFrom?_eq_some_iff.2 ⟨before ++ front, by simp [hsource], ?_⟩
  rw [Text.byteSize_append, hsize, Position.offset_after]

/-- Behind a character, `textFrom?` gives what follows it. -/
theorem textFrom?_step {c : Char} {cs : List Char}
    (h : textFrom? source p.offset = some (c :: cs)) :
    textFrom? source (p.step c).offset = some cs := by
  rw [← List.singleton_append] at h
  exact textFrom?_after h

/-- What is read can be cut out of the source by `Text.slice?`. -/
theorem slice?_after {front back : List Char}
    (h : textFrom? source p.offset = some (front ++ back)) :
    Text.slice? source.toList p.offset (p.after front).offset = some front := by
  obtain ⟨before, hsource, hsize⟩ := textFrom?_eq_some_iff.1 h
  rw [hsource, Position.offset_after, ← hsize, ← List.append_assoc, Text.slice?_append]

/-- The span over what is read has it as its `text?`. -/
theorem text?_after {front back : List Char}
    (h : textFrom? source p.offset = some (front ++ back)) :
    (Span.between p (p.after front).offset).text? source = some (String.ofList front) := by
  rw [Span.text?, Span.between, slice?_after h, Option.map_some]

namespace Lexeme

/-- The longest run of word characters starts as `isWordStart` has it exactly if the text does. -/
theorem any_head_takeWhile (cs : List Char) :
    (cs.takeWhile isWordChar).head?.any isWordStart = cs.head?.any isWordStart := by
  cases cs with
  | nil => rfl
  | cons c cs =>
    by_cases hc : isWordChar c = true
    · rw [List.takeWhile_cons_of_pos hc]
      rfl
    · have hstart : isWordStart c = false := by
        by_contra hstart
        exact hc (isWordChar_of_isWordStart (by simpa using hstart))
      rw [List.takeWhile_cons_of_neg hc]
      simp [hstart]

end Lexeme

namespace Position

/-! ## One character at a time -/

/-- The next character of `source` at the place `p`, if the source has not ended. -/
def char? (source : String) (p : Position) : Option (Option Char) :=
  (textFrom? source p.offset).map List.head?

/-- The character after the one that `char?` gives. -/
def second? (source : String) (p : Position) : Option (Option Char) :=
  (textFrom? source p.offset).map (·[1]?)

/-- The next character and the place behind it, if `source` has not ended. -/
def bump? (source : String) (p : Position) : Option (Option (Char × Position)) :=
  (p.char? source).map fun next => next.map fun c => (c, p.step c)

/-- At the end of a source, `bump?` refuses nothing and gives no character. -/
theorem bump?_nil (h : textFrom? source p.offset = some []) : p.bump? source = some none := by
  simp [bump?, char?, h]

/-- Before a character, `bump?` gives it and the place that `Position.step` leads to. -/
theorem bump?_cons {c : Char} {cs : List Char} (h : textFrom? source p.offset = some (c :: cs)) :
    p.bump? source = some (some (c, p.step c)) := by
  simp [bump?, char?, h]

/-- A character that `bump?` gives brings the place forward, within the source. -/
theorem lt_of_bump? {c : Char} {q : Position} (h : p.bump? source = some (some (c, q))) :
    p.offset < q.offset ∧ q.offset ≤ source.utf8ByteSize := by
  simp only [bump?, char?, Option.map_map, Option.map_eq_some_iff, Function.comp_apply,
    Prod.mk.injEq] at h
  obtain ⟨rest, hrest, d, hhead, rfl, rfl⟩ := h
  obtain ⟨tail, rfl⟩ := List.head?_eq_some_iff.1 hhead
  obtain ⟨front, hsource, hsize⟩ := textFrom?_eq_some_iff.1 hrest
  have hpos := d.utf8Size_pos
  rw [offset_step, ← hsize, ← Text.byteSize_toList, hsource, Text.byteSize_append,
    Text.byteSize_cons]
  omega

/-- The place behind the characters that pass `test`, from `p` on. -/
def passWhile? (source : String) (test : Char → Bool) (p : Position) : Option Position :=
  match h : p.bump? source with
  | none => none
  | some none => some p
  | some (some (c, q)) =>
    have := lt_of_bump? h
    if test c then passWhile? source test q else some p
termination_by source.utf8ByteSize - p.offset

/-- The place behind a string literal of which the opening quote has been read, or the end of
`source` if nothing closes it.  The flag tells which. -/
def passString? (source : String) (p : Position) : Option (Bool × Position) :=
  match h : p.bump? source with
  | none => none
  | some none => some (false, p)
  | some (some (c, q)) =>
    have := lt_of_bump? h
    if c = '"' then
      some (true, q)
    else if c = '\\' then
      match h' : q.bump? source with
      | none => none
      | some none => some (false, q)
      | some (some (_, q')) =>
        have := lt_of_bump? h'
        passString? source q'
    else
      passString? source q
termination_by source.utf8ByteSize - p.offset

/-- The first place from `p` on that is not before the offset `stop`. -/
def passTo? (source : String) (stop : Nat) (p : Position) : Option Position :=
  if p.offset < stop then
    match h : p.bump? source with
    | none => none
    | some none => none
    | some (some (_, q)) =>
      have := lt_of_bump? h
      passTo? source stop q
  else
    some p
termination_by source.utf8ByteSize - p.offset

section Loops

variable {rest : List Char}

/-- One round of `passWhile?`: it takes a character that passes the test and goes on. -/
theorem passWhile?_unfold (test : Char → Bool) :
    p.passWhile? source test = (p.bump? source).bind fun next =>
      match next with
      | none => some p
      | some (c, q) => if test c then q.passWhile? source test else some p := by
  rw [passWhile?]
  split <;> simp_all

/-- All characters that pass the test are passed over by `passWhile?`, up to the first that does
not. -/
theorem passWhile?_eq (test : Char → Bool) (h : textFrom? source p.offset = some rest) :
    p.passWhile? source test = some (p.after (rest.takeWhile test)) := by
  induction rest generalizing p with
  | nil => rw [passWhile?_unfold, bump?_nil h, Option.bind_some, List.takeWhile_nil, after_nil]
  | cons c rest ih =>
    rw [passWhile?_unfold, bump?_cons h]
    dsimp only [Option.bind_some]
    rw [ih (textFrom?_step h)]
    by_cases hc : test c = true
    · rw [if_pos hc, List.takeWhile_cons_of_pos hc, after_cons]
    · rw [if_neg hc, List.takeWhile_cons_of_neg hc, after_nil]

/-- One round of `passString?`: it takes a character, and two if the first is a backslash. -/
theorem passString?_unfold :
    p.passString? source = (p.bump? source).bind fun next =>
      match next with
      | none => some (false, p)
      | some (c, q) =>
        if c = '"' then some (true, q)
        else if c = '\\' then
          (q.bump? source).bind fun next' =>
            match next' with
            | none => some (false, q)
            | some (_, q') => q'.passString? source
        else q.passString? source := by
  rw [passString?]
  split
  · simp_all
  · simp_all
  · rename_i c q h
    simp only [h, Option.bind_some]
    split
    · rfl
    · split
      · split <;> simp_all
      · rfl

/-- A string literal is passed over by `passString?` up to the quote where `Lexeme.closeString` ends
it, or up to the end of the source. -/
theorem passString?_eq (h : textFrom? source p.offset = some rest) :
    p.passString? source = some (((Lexeme.closeString rest).map fun (body, _) =>
      (true, p.after body)).getD (false, p.after rest)) := by
  fun_induction Lexeme.closeString rest generalizing p with
  | case1 => rw [passString?_unfold, bump?_nil h]; rfl
  | case2 cs => rw [passString?_unfold, bump?_cons h]; rfl
  | case3 c cs ih =>
    have hsecond := textFrom?_step h
    rw [passString?_unfold, bump?_cons h]
    dsimp only [Option.bind_some]
    rw [if_neg (by decide), if_pos rfl, bump?_cons hsecond]
    dsimp only [Option.bind_some]
    rw [ih (textFrom?_step hsecond)]
    cases Lexeme.closeString cs <;> rfl
  | case4 c cs hquote hpair ih =>
    rw [passString?_unfold, bump?_cons h]
    dsimp only [Option.bind_some]
    rw [if_neg hquote]
    by_cases hback : c = '\\'
    · -- a backslash is followed by nothing only at the end of the source
      subst hback
      obtain rfl : cs = [] := List.eq_nil_iff_forall_not_mem.2 fun d hd => by
        obtain ⟨d, ds, rfl⟩ := List.exists_cons_of_ne_nil (List.ne_nil_of_mem hd)
        exact hpair d ds rfl rfl
      rw [if_pos rfl, bump?_nil (textFrom?_step h)]
      rfl
    · rw [if_neg hback, ih (textFrom?_step h)]
      cases Lexeme.closeString cs <;> rfl

/-- One round of `passTo?`: it takes a character while `stop` is ahead. -/
theorem passTo?_unfold (stop : Nat) :
    p.passTo? source stop =
      if p.offset < stop then
        (p.bump? source).bind fun next => next.bind fun (_, q) => q.passTo? source stop
      else some p := by
  rw [passTo?]
  split
  · split <;> simp_all
  · rfl

/-- The end of a text ahead is reached by `passTo?`, neither short of it nor past it. -/
theorem passTo?_eq {front : List Char} (h : textFrom? source p.offset = some (front ++ rest)) :
    p.passTo? source (p.after front).offset = some (p.after front) := by
  induction front generalizing p with
  | nil => rw [passTo?_unfold, after_nil, if_neg (Nat.lt_irrefl _)]
  | cons c front ih =>
    have hlt : p.offset < (p.after (c :: front)).offset := by
      have hpos := c.utf8Size_pos
      rw [offset_after, Text.byteSize_cons]
      omega
    rw [passTo?_unfold, if_pos hlt, bump?_cons h, after_cons]
    exact ih (textFrom?_step h)

end Loops

/-! ## Numbers and words -/

/-- The place behind a number, of which a fraction is taken only if `second?` is a digit. -/
def passNumber? (source : String) (p : Position) : Option Position := do
  let q ← p.passWhile? source Char.isDigit
  if (← q.char? source) = some '.' ∧ (← q.second? source).any Char.isDigit then
    (q.step '.').passWhile? source Char.isDigit
  else
    some q

/-- The place that `passNumber?` gives is behind what `Lexeme.number` splits off. -/
theorem passNumber?_eq {rest : List Char} (h : textFrom? source p.offset = some rest) :
    p.passNumber? source = some (p.after (Lexeme.number rest).1) := by
  have hwhole := passWhile?_eq Char.isDigit h
  rw [← List.takeWhile_append_dropWhile (p := Char.isDigit) (l := rest)] at h
  have hbehind := textFrom?_after h
  rw [passNumber?, hwhole, Option.bind_eq_bind, Option.bind_some, char?, second?, hbehind]
  fun_cases Lexeme.number rest with
  | case1 whole d tail hrest hd =>
    have hfraction := passWhile?_eq Char.isDigit (textFrom?_step (hrest ▸ hbehind))
    simp [hrest, hd, hfraction, after_append, whole]
  | case2 whole d tail hrest hd => simp [hrest, hd, whole]
  | case3 whole hrest =>
    cases hdrop : rest.dropWhile Char.isDigit with
    | nil => simp [whole]
    | cons c tail =>
      cases tail with
      | nil => simp [whole]
      | cons d tail =>
        have hc : c ≠ '.' := fun hc => hrest d tail (hc ▸ hdrop)
        simp [hc, whole]

/-- Where the name of a builtin command ends that `gx`, just read, is the start of.  The name is cut
out together with the two bytes before the place. -/
def builtinStop? (source : String) (p : Position) : Option (Option Nat) := do
  match ← textFrom? source p.offset with
  | '.' :: tail =>
    let size := Text.byteSize (tail.takeWhile Lexeme.isWordChar)
    if size = 0 ∨ tail.head?.any Lexeme.isWordStart = false then
      return none
    else
      let stop := p.offset + 1 + size
      let name ← Text.slice? source.toList (← Text.back? p.offset 2) stop
      if (Builtin.ofName? (String.ofList name)).isNone then
        return none
      else
        let rest ← textFrom? source stop
        return if ← Lexeme.opensWithin (rest.length + 1) rest then some stop else none
  | _ => return none

/-- Behind `gx` and a dot stands the longest word, and the name is cut out with the two characters
before the dot. -/
theorem builtinStop?_dot {word rest : List Char}
    (h : textFrom? source p.offset = some (['g', 'x', '.'] ++ word ++ rest))
    (hword : (word ++ rest).takeWhile Lexeme.isWordChar = word) :
    (p.after ['g', 'x']).builtinStop? source =
      some (if word.head?.any Lexeme.isWordStart
          && (Builtin.ofName? ("gx." ++ String.ofList word)).isSome && Lexeme.opensCall false rest
        then some ((p.after ['g', 'x']).after ('.' :: word)).offset else none) := by
  have hbehind : textFrom? source (p.after ['g', 'x']).offset = some ('.' :: (word ++ rest)) := by
    rw [List.append_assoc] at h
    exact textFrom?_after h
  have hback : Text.back? (p.after ['g', 'x']).offset 2 = some p.offset := by
    rw [offset_after]
    exact Text.back?_add _ _
  have hstop : (p.after ['g', 'x']).offset + 1 + Text.byteSize word
      = ((p.after ['g', 'x']).after ('.' :: word)).offset := by
    rw [offset_after _ ('.' :: word), Text.byteSize_cons, Nat.add_assoc]
    rfl
  have hname : Text.slice? source.toList p.offset ((p.after ['g', 'x']).after ('.' :: word)).offset
      = some (['g', 'x', '.'] ++ word) := slice?_after h
  have hrest : textFrom? source ((p.after ['g', 'x']).after ('.' :: word)).offset = some rest :=
    textFrom?_after hbehind
  have hspelled : String.ofList (['g', 'x', '.'] ++ word) = "gx." ++ String.ofList word := by
    rw [String.ofList_append]
  simp only [builtinStop?, hbehind, Option.bind_eq_bind, Option.bind_some, hword, hstop, hback,
    hname, hrest, hspelled, Lexeme.opensWithin_eq (Nat.lt_succ_self rest.length)]
  -- no cut is left in the goal, only the tests; they are made in another order on the two sides
  have hhead := Lexeme.any_head_takeWhile (word ++ rest)
  rw [hword] at hhead
  rw [← hhead]
  by_cases hstart : word.head?.any Lexeme.isWordStart = true
  · have hsize : Text.byteSize word ≠ 0 := by
      intro hzero
      have hlength := Text.length_le_byteSize word
      obtain rfl : word = [] := List.length_eq_zero_iff.1 (by omega)
      simp at hstart
    simp only [hstart, hsize]
    cases Builtin.ofName? ("gx." ++ String.ofList word) <;>
      cases Lexeme.opensCall false rest <;> rfl
  · simp [hstart]

/-- The offset that `builtinStop?` gives is behind what `Lexeme.builtinTail` takes, and there is one
where there is the other. -/
theorem builtinStop?_eq {rest : List Char}
    (h : textFrom? source p.offset = some (['g', 'x'] ++ rest)) :
    (p.after ['g', 'x']).builtinStop? source = some ((Lexeme.builtinTail rest).map fun (tail, _) =>
      ((p.after ['g', 'x']).after tail).offset) := by
  have hbehind := textFrom?_after h
  fun_cases Lexeme.builtinTail rest with
  | case3 hdot =>
    simp only [builtinStop?, hbehind, Option.bind_eq_bind, Option.bind_some]
    rfl
  | case1 cs word rest hcalls =>
    have hcs : cs = word ++ rest := List.takeWhile_append_dropWhile.symm
    rw [hcs] at h
    rw [builtinStop?_dot (by simpa using h) (by rw [← hcs]), if_pos hcalls]
    rfl
  | case2 cs word rest hcalls =>
    have hcs : cs = word ++ rest := List.takeWhile_append_dropWhile.symm
    rw [hcs] at h
    rw [builtinStop?_dot (by simpa using h) (by rw [← hcs]), if_neg hcalls]
    rfl

/-- The kind of a word and the place behind it, or behind the name of a builtin command that
`builtinStop?` finds. -/
def passWord? (source : String) (afterDot : Bool) (p : Position) : Option (Kind × Position) := do
  let q ← p.passWhile? source Lexeme.isWordChar
  if afterDot then
    return (.ident, q)
  else if (← Text.slice? source.toList p.offset q.offset) ≠ ['g', 'x'] then
    return (.ident, q)
  else
    match ← q.builtinStop? source with
    | none => return (.ident, q)
    | some stop => return (.builtin, ← q.passTo? source stop)

/-- The kind and the place that `passWord?` gives are those of `Lexeme.word`. -/
theorem passWord?_eq (afterDot : Bool) {rest : List Char}
    (h : textFrom? source p.offset = some rest) :
    p.passWord? source afterDot
      = some ((Lexeme.word afterDot rest).1, p.after (Lexeme.word afterDot rest).2.1) := by
  have hpass := passWhile?_eq Lexeme.isWordChar h
  rw [← List.takeWhile_append_dropWhile (p := Lexeme.isWordChar) (l := rest)] at h
  have hslice := slice?_after h
  simp only [passWord?, hpass, hslice, Option.bind_eq_bind, Option.bind_some, Lexeme.word]
  -- what the word is matters only as far as it is `gx` or not
  generalize rest.takeWhile Lexeme.isWordChar = text at h
  generalize rest.dropWhile Lexeme.isWordChar = behind at h
  cases afterDot with
  | true => rfl
  | false =>
    by_cases htext : text = ['g', 'x']
    · subst htext
      have hstop := builtinStop?_eq h
      rw [if_neg (by decide), if_neg (by simp), if_pos (by decide), hstop]
      cases htail : Lexeme.builtinTail behind with
      | none => rfl
      | some split =>
        obtain ⟨tail, rest⟩ := split
        obtain rfl := Lexeme.builtinTail_append htail
        have hto := passTo?_eq (textFrom?_after h)
        simp only [Option.map_some, Option.bind_some, hto, after_append]
        rfl
    · rw [if_neg (by decide), if_pos htext, if_neg (by simpa using htext)]
      rfl

/-! ## One token -/

/-- The kind of the token that stands at `p` with no blanks ahead, or the reason why there is none,
and the place that reading goes on from. -/
def scan? (source : String) (afterDot : Bool) (p : Position) :
    Option (Except LexError Kind × Position) := do
  match ← p.char? source with
  | none => return (.ok .eof, p)
  | some c =>
    let q := p.step c
    if c = '#' then
      if (← q.char? source) = some '[' then
        return (.ok .annotOpen, q.step '[')
      else
        return (.ok .comment, ← q.passWhile? source (· != '\n'))
    else if c = '"' then
      let (closed, q) ← q.passString? source
      return (if closed then .ok .str else .error ⟨.unterminatedString, p⟩, q)
    else if c.isDigit then
      return (.ok .number, ← p.passNumber? source)
    else if Lexeme.isWordStart c then
      let (kind, q) ← p.passWord? source afterDot
      return (.ok kind, q)
    else
      match Kind.ofSign? c with
      | some kind => return (.ok kind, q)
      | none => return (.error ⟨.unexpectedChar c, p⟩, p)

end Position

/-- What `Lexeme.scan` says about `text` at the place `p`: the kind of the token there, or the
reason why there is none, and the place that reading goes on from. -/
def Lexeme.Scan.outcome (p : Position) (text : List Char) : Scan → Except LexError Kind × Position
  | .done => (.ok .eof, p)
  | .token kind lexeme _ => (.ok kind, p.after lexeme)
  | .unterminated => (.error ⟨.unterminatedString, p⟩, p.after text)
  | .illegal c => (.error ⟨.unexpectedChar c, p⟩, p)

/-- A token is found by `scan?`, which works with offsets, where `Lexeme.scan` finds it in the
text. -/
theorem Position.scan?_eq (afterDot : Bool) {text : List Char}
    (h : textFrom? source p.offset = some text) :
    p.scan? source afterDot = some ((Lexeme.scan afterDot text).outcome p text) := by
  cases text with
  | nil => simp [scan?, char?, h, Lexeme.scan, Lexeme.Scan.outcome]
  | cons c cs =>
    have hbehind := textFrom?_step h
    have hc : p.char? source = some (some c) := by rw [char?, h]; rfl
    simp only [scan?, hc, Option.bind_eq_bind, Option.bind_some, Lexeme.scan]
    by_cases hhash : c = '#'
    · have hnext : (p.step c).char? source = some cs.head? := by rw [char?, hbehind]; rfl
      have hline := passWhile?_eq (· != '\n') hbehind
      simp only [if_pos hhash, hnext, hline, Option.bind_some]
      by_cases hopen : cs.head? = some '['
      · simp [hopen, hhash, Lexeme.Scan.outcome]
      · simp [hopen, Lexeme.Scan.outcome]
    by_cases hquote : c = '"'
    · simp only [if_neg hhash, if_pos hquote, passString?_eq hbehind, Option.bind_some]
      cases Lexeme.closeString cs <;> rfl
    by_cases hdigit : c.isDigit = true
    · simp only [if_neg hhash, if_neg hquote, if_pos hdigit, passNumber?_eq h, Option.bind_some]
      rfl
    by_cases hword : Lexeme.isWordStart c = true
    · simp only [if_neg hhash, if_neg hquote, if_neg hdigit, if_pos hword,
        passWord?_eq afterDot h, Option.bind_some]
      rfl
    simp only [if_neg hhash, if_neg hquote, if_neg hdigit, if_neg hword]
    cases Kind.ofSign? c <;> rfl

/-! ## One request after the other -/

/-- A place in a source from which tokens are read, and whether the last token, comments aside, was
a dot: a `Cursor` without its text. -/
structure Pointer where
  position : Position
  afterDot : Bool
  deriving DecidableEq, Inhabited

namespace Pointer

/-- The pointer at `Position.start`. -/
def start : Pointer :=
  ⟨.start, false⟩

/-- The next token, or the reason why there is none, and the pointer behind it.  The text of the
token is cut out of `source`. -/
def next? (source : String) (s : Pointer) : Option (Except LexError Token × Pointer) := do
  let p ← s.position.passWhile? source Text.isBlank
  match ← p.scan? source s.afterDot with
  | (.error e, q) => return (.error e, ⟨q, s.afterDot⟩)
  | (.ok kind, q) =>
    let span := Span.between p q.offset
    let text ← span.text? source
    return (.ok ⟨kind, text, span⟩, ⟨q, if kind = .comment then s.afterDot else kind == .dot⟩)

/-- The answers to a number of calls of `next?`, errors included. -/
def answers? (source : String) : Nat → Pointer → Option (List (Except LexError Token))
  | 0, _ => some []
  | n + 1, s => do
    let (answer, s') ← s.next? source
    return answer :: (← answers? source n s')

end Pointer

namespace Cursor

/-- What the cursor `c` knows beside the text that is left to it. -/
def pointer (c : Cursor) : Pointer :=
  ⟨c.position, c.afterDot⟩

/-- The cursor `c` stands in `source`: from its offset on, the source is the text that is left to
it. -/
def In (source : String) (c : Cursor) : Prop :=
  textFrom? source c.position.offset = some c.rest

/-- The cursor at the start of a source is `In` it. -/
theorem in_ofSource (source : String) : (ofSource source).In source :=
  textFrom?_eq_some_iff.2 ⟨[], rfl, rfl⟩

/-- A call of `next` leaves a cursor `In` its source. -/
theorem In.next {c : Cursor} (h : c.In source) : c.next.2.In source := by
  obtain ⟨passed, hrest, hposition⟩ := c.next_split
  rw [In, hrest] at h
  rw [In, hposition]
  exact textFrom?_after h

end Cursor

namespace Pointer

/-- A pointer answers to `next?` as the cursor that stands there does to `next`. -/
theorem next?_eq {c : Cursor} (h : c.In source) :
    c.pointer.next? source = some (c.next.1, c.next.2.pointer) := by
  have hblanks : c.position.passWhile? source Text.isBlank = some c.skipBlanks.position :=
    Position.passWhile?_eq Text.isBlank h
  have hbehind : c.skipBlanks.In source := by
    rw [Cursor.In, ← List.takeWhile_append_dropWhile (p := Text.isBlank) (l := c.rest)] at h
    exact textFrom?_after h
  have hscan := Position.scan?_eq c.afterDot hbehind
  have hdot : c.skipBlanks.afterDot = c.afterDot := rfl
  simp only [next?, Cursor.pointer, hblanks, hscan, Option.bind_eq_bind, Option.bind_some]
  rw [Cursor.next, ← hdot]
  generalize c.skipBlanks = d at hbehind
  rw [Cursor.read]
  cases hd : Lexeme.scan d.afterDot d.rest with
  | done =>
    have htext : (Span.between d.position (d.position.after []).offset).text? source
        = some (String.ofList []) := text?_after hbehind
    rw [Position.after_nil] at htext
    simp only [Lexeme.Scan.outcome, htext, Option.bind_some]
    rfl
  | token kind lexeme rest =>
    -- the text is known as a whole; the token is its head
    rw [Cursor.In, ← Lexeme.scan_append hd] at hbehind
    simp only [Lexeme.Scan.outcome, text?_after hbehind, Option.bind_some]
    rfl
  | unterminated => rfl
  | illegal ch => rfl

/-- Nothing is refused, however often a pointer is asked: `answers?` gives what `steps` does. -/
theorem answers?_eq {c : Cursor} (h : c.In source) (n : Nat) :
    c.pointer.answers? source n = some (c.steps n) := by
  induction n generalizing c with
  | zero => rfl
  | succ n ih =>
    simp only [answers?, next?_eq h, Option.bind_eq_bind, Option.bind_some, ih h.next]
    rfl

end Pointer

end Gxl
