import Gxl.Proofs.Grammar.Chunks
import Gxl.Proofs.Grammar.Seams

/-!
# What a reader notes

The name of a builtin command is noted when its token is fetched, which may be one or two tokens
before it is taken.  So what a rule adds to the trail is not what it takes.  What stays the same is
the trail that a reader will have once it has fetched all of its tokens (`Reader.Tracks`): fetching
a token moves its event from the tokens to the trail, and no rule adds anything else, the rule of
items aside (`Rule.Silent`).

Where an item may start, the tokens that have been looked at are at most two, and neither is the
name of a builtin command.  There the trail is as long as it is to be for the tokens that have been
taken, and so an item adds its own event and those of its chunk (`events_of_item`).
-/

namespace Gxl

/-! ## Rules that note nothing -/

namespace Rule

variable {α β : Type}

/-- The rule adds no event of its own to the trail: there is no `note` in it. -/
def Silent : {α : Type} → Rule α → Prop
  | _, seq first next => first.Silent ∧ ∀ a, (next a).Silent
  | _, note _ => False
  | _, many step => step.Silent
  | _, _ => True

@[simp] theorem silent_pure (a : α) : (pure a : Rule α).Silent := trivial

/-- Rules one behind the other are silent if each of them is. -/
@[simp] theorem silent_bind {x : Rule α} {k : α → Rule β} :
    (x >>= k).Silent ↔ x.Silent ∧ ∀ a, (k a).Silent := Iff.rfl

@[simp] theorem silent_peek : peek.Silent := trivial

@[simp] theorem silent_peekSecond : peekSecond.Silent := trivial

@[simp] theorem silent_advance : advance.Silent := trivial

@[simp] theorem silent_lastEnd : lastEnd.Silent := trivial

@[simp] theorem silent_fail (expected : List Expected) : (fail expected : Rule α).Silent := trivial

@[simp] theorem silent_many {step : Rule (Option α)} : (many step).Silent ↔ step.Silent := Iff.rfl

/-- What a step preserves, repeating the step with `loop` preserves. -/
theorem loop_preserves {σ : Type} [Feed σ] {I : Reader σ → Prop}
    {step : Reader σ → Except Error (Option α) × Reader σ}
    (hstep : ∀ r o r', I r → step r = (.ok o, r') → I r') {r r' : Reader σ} {as : List α}
    (hr : I r) (hrun : loop step r = (.ok as, r')) : I r' := by
  induction hsize : r.size using Nat.strongRecOn generalizing r as with
  | ind n ih =>
    subst hsize
    rw [loop] at hrun
    rcases hfirst : step r with ⟨e | _ | a, r₁⟩ <;> simp only [hfirst] at hrun
    · simp at hrun
    · obtain ⟨-, rfl⟩ : _ ∧ r₁ = r' := by simpa using hrun
      exact hstep r none r₁ hr hfirst
    · have hr₁ := hstep r (some a) r₁ hr hfirst
      split at hrun
      · rename_i hlt
        rcases hloop : loop step r₁ with ⟨e | as', r₂⟩ <;> rw [hloop] at hrun
        · simp at hrun
        · obtain ⟨-, rfl⟩ : _ ∧ r₂ = r' := by simpa using hrun
          exact ih r₁.size hlt hr₁ hloop rfl
      · obtain ⟨-, rfl⟩ : _ ∧ r₁ = r' := by simpa using hrun
        exact hr₁

/-- What `peek`, `peekSecond` and taking a token preserve, every silent rule preserves. -/
theorem Silent.preserves {σ : Type} [Feed σ] {I : Reader σ → Prop}
    (hpeek : ∀ r t r', I r → r.peek = (.ok t, r') → I r')
    (hpeekSecond : ∀ r t r', I r → r.peekSecond = (.ok t, r') → I r')
    (hdrop : ∀ r t, I r → I (r.drop t)) {x : Rule α} (h : x.Silent) {r r' : Reader σ} {a : α}
    (hr : I r) (hrun : x.run r = (.ok a, r')) : I r' := by
  induction x generalizing r r' with
  | ret a =>
    obtain ⟨-, rfl⟩ : _ ∧ r = r' := by simpa [run] using hrun
    exact hr
  | seq first next ihfirst ihnext =>
    rw [run] at hrun
    rcases hfirst : first.run r with ⟨e | b, r₁⟩ <;> rw [hfirst] at hrun
    · simp at hrun
    · exact ihnext b (h.2 b) (ihfirst h.1 hr hfirst) hrun
  | peek => exact hpeek r a r' hr hrun
  | peekSecond => exact hpeekSecond r a r' hr hrun
  | advance =>
    rw [run, Reader.advance] at hrun
    rcases hfirst : r.peek with ⟨e | t, r₁⟩ <;> rw [hfirst] at hrun
    · simp at hrun
    · obtain ⟨-, rfl⟩ : _ ∧ r₁.drop t = r' := by simpa using hrun
      exact hdrop r₁ t (hpeek r t r₁ hr hfirst)
  | lastEnd =>
    obtain ⟨-, rfl⟩ : _ ∧ r = r' := by simpa [run] using hrun
    exact hr
  | note e => exact h.elim
  | fail expected =>
    rw [run] at hrun
    split at hrun <;> simp at hrun
  | many step ih => exact loop_preserves (fun _ _ _ => ih h) hr hrun

/-! ## Every rule of the grammar but those of items and documents is silent -/

@[simp] theorem silent_discard {x : Rule α} (h : x.Silent) : (discard x : Rule Unit).Silent :=
  ⟨h, fun _ => trivial⟩

/-- Both cases of a choice have to be silent. -/
@[simp] theorem silent_ite {c : Prop} [Decidable c] {x y : Rule α} (hx : x.Silent)
    (hy : y.Silent) : (if c then x else y).Silent := by
  split
  · exact hx
  · exact hy

@[simp] theorem silent_atKind (kind : Kind) : (atKind kind).Silent := by simp [atKind]

@[simp] theorem silent_atWord (word : String) : (atWord word).Silent := by simp [atWord]

@[simp] theorem silent_eat (kind : Kind) : (eat kind).Silent := by simp [eat]

@[simp] theorem silent_expect (kind : Kind) : (expect kind).Silent := by
  simp [expect, Option.forall]

@[simp] theorem silent_expectWord (word : String) : (expectWord word).Silent := by
  simp [expectWord]

@[simp] theorem silent_spanFrom (start : Span) : (spanFrom start).Silent := by simp [spanFrom]

@[simp] theorem silent_closing (start : Span) : (closing start).Silent := by simp [closing]

/-- Items behind signs are silent if an item is. -/
@[simp] theorem silent_eachAfter {x : Rule α} (sign : Kind) (h : x.Silent) :
    (eachAfter sign x).Silent := by
  simp [eachAfter, Option.forall, h]

/-- Items with commas between are silent if an item is. -/
@[simp] theorem silent_commaList {x : Rule α} (h : x.Silent) : (commaList x).Silent := by
  simp [commaList, h]

/-- Entries between braces are silent if an entry is. -/
@[simp] theorem silent_block {x : Rule α} (h : x.Silent) : (block x).Silent := by
  simp [block, h]

/-- The rules of the grammar are `Silent`, and the lemmas from here to `silent_external` say so of
one after the other. -/
@[simp] theorem silent_ident : ident.Silent := by simp [ident]

@[simp] theorem silent_string : string.Silent := by simp [string]

@[simp] theorem silent_refList : refList.Silent := by simp [refList]

@[simp] theorem silent_refsAfter (sign : Kind) : (refsAfter sign).Silent := by
  simp [refsAfter, Option.forall]

@[simp] theorem silent_annots : annots.Silent := by
  have harg : annotArg.Silent := by
    simp only [annotArg, silent_bind, silent_peek, true_and]
    intro t
    split <;> simp
  simp [annots, annotArgs, Option.forall, harg]

@[simp] theorem silent_arg : arg.Silent := by
  have hvalue : argValue.Silent := by
    simp only [argValue, silent_bind, silent_peek, true_and]
    intro t
    split <;> simp
  simp [arg, hvalue]

@[simp] theorem silent_callArgs : callArgs.Silent := by simp [callArgs, Option.forall]

@[simp] theorem silent_target : target.Silent := by simp [target]

@[simp] theorem silent_callTail (t : Target) (start : Span) : (callTail t start).Silent := by
  simp [callTail]

/-- The rule `command` is silent: the name of a builtin command is noted when its token is
fetched. -/
@[simp] theorem silent_command : command.Silent := by
  simp only [command, silent_bind, silent_peek, true_and]
  intro t
  split
  · split <;> simp
  · simp
  · simp

@[simp] theorem silent_property : property.Silent := by
  have hliteral : literal.Silent := by
    simp only [literal, silent_bind, silent_peek, true_and]
    intro t
    split <;> simp
  simp [property, hliteral]

/-- The rule `environment` is silent, as all of its entries are. -/
@[simp] theorem silent_environment (annots : List Annot) (start : Span) :
    (environment annots start).Silent := by
  have hentry : environmentEntry.Silent := by
    simp only [environmentEntry, silent_bind, silent_peek, true_and]
    intro t
    split
    · simp
    · simp only [silent_bind, silent_peekSecond, true_and]
      intro u
      split <;> simp [callOrVars, varsBlock]
    · simp
  simp [environment, hentry]

/-- The rule `flow` is silent, be it a flow or a name for others. -/
@[simp] theorem silent_flow (annots : List Annot) (start : Span) : (flow annots start).Silent := by
  have hentry : flowEntry.Silent := by
    simp only [flowEntry, silent_bind, silent_peek, true_and]
    intro t
    split <;> simp
  simp only [flow, silent_bind, silent_expectWord, silent_discard, silent_peek, true_and]
  intro _ t
  split
  · simp [flowFrom, hentry]
  · simp only [silent_bind, silent_peekSecond, true_and]
    intro u
    split <;> simp [flowAlias, flowFrom, hentry]
  · simp

@[simp] theorem silent_fn (annots : List Annot) (start : Span) : (fn annots start).Silent := by
  have hparam : param.Silent := by simp [param, Option.forall]
  have hentry : fnEntry.Silent := by
    simp only [fnEntry, silent_bind, silent_peek, true_and]
    intro t
    split <;> simp
  simp [fn, params, hparam, hentry]

@[simp] theorem silent_activity (annots : List Annot) (start : Span) :
    (activity annots start).Silent := by
  simp [activity, activityEntry]

/-- The rule `module` is silent, as all of its members are. -/
@[simp] theorem silent_module (annots : List Annot) (start : Span) :
    (module annots start).Silent := by
  have hmember : member.Silent := by
    simp only [member, silent_bind, silent_peek, true_and]
    intro t
    split <;> simp [memberAfter]
  simp [module, hmember]

@[simp] theorem silent_external : external.Silent := by simp [external, origin]

end Rule

/-! ## The trail of a reader -/

/-- The event of the call of a builtin command: its name, at the place where the call starts, as
`Event.builtin` has them. -/
def BuiltinCall.event (c : BuiltinCall) : Event :=
  .builtin c.builtin.name c.span.line c.span.column

/-- Tokens that name the builtin commands of some calls (`Names`) have the events of these calls. -/
theorem Names.events {u : List Token} {calls : List BuiltinCall} (h : Names u calls) :
    u.flatMap Event.ofToken = calls.map BuiltinCall.event := by
  have hnames : ∀ v : List Token, v.flatMap Event.ofToken =
      (builtinNames v).map fun p => .builtin p.1 p.2.line p.2.column := by
    intro v
    induction v with
    | nil => rfl
    | cons t v ih =>
      by_cases ht : t.kind = .builtin <;>
        simp_all [Event.ofToken, builtinNames, Span.startPosition]
  rw [hnames, h, List.map_map]
  rfl

namespace Reader

/-- The trail that a reader will have once it has fetched all of its tokens, and that it has looked
at two of them at most, the tokens `ahead`. -/
structure Tracks (r : Reader Cursor) (trail : List Event) : Prop where
  records : ∃ given fault, Feed.Gives r.feed given fault ∧
    trail = r.events ++ given.flatMap Event.ofToken
  short : r.ahead.length ≤ 2

variable {r r' : Reader Cursor} {trail : List Event} {t : Token} {held : List Token}
  {fault : Option LexError}

/-- Fetching a token with `fetch` moves its event from the tokens to the trail. -/
theorem Tracks.fetch (h : r.Tracks trail) (hshort : r.ahead.length < 2)
    (hfetch : r.fetch = (.ok t, r')) : r'.Tracks trail := by
  obtain ⟨given, fault, hgives, htrail⟩ := h.records
  rw [Reader.fetch] at hfetch
  cases hgives with
  | fault hnext => simp [hnext] at hfetch
  | @eof _ s x hnext again hx hsize =>
    rw [hnext] at hfetch
    obtain ⟨-, rfl⟩ := Prod.mk.inj hfetch
    refine ⟨⟨[x], none, .eof again again hx (Nat.le_refl _), ?_⟩, by simp; omega⟩
    have hnone : Event.ofToken x = [] := by simp [Event.ofToken, hx]
    simp [htrail, hnone]
  | @token _ s x ts _ hnext hx hsize hs =>
    rw [hnext] at hfetch
    obtain ⟨-, rfl⟩ := Prod.mk.inj hfetch
    exact ⟨⟨ts, fault, hs, by simp [htrail]⟩, by simp; omega⟩

/-- Looking at the next token keeps what a reader tracks. -/
theorem Tracks.peek (h : r.Tracks trail) (hpeek : r.peek = (.ok t, r')) : r'.Tracks trail := by
  rw [Reader.peek] at hpeek
  split at hpeek
  · rename_i hahead
    exact h.fetch (by simp [hahead]) hpeek
  · obtain ⟨-, rfl⟩ := Prod.mk.inj hpeek
    exact h

/-- Looking at the token after the next keeps what a reader tracks. -/
theorem Tracks.peekSecond (h : r.Tracks trail) (hpeek : r.peekSecond = (.ok t, r')) :
    r'.Tracks trail := by
  rw [Reader.peekSecond] at hpeek
  split at hpeek
  · rename_i hahead
    split at hpeek
    · simp at hpeek
    · rename_i x r₁ hfetch
      have hr₁ : r₁.ahead.length < 2 := by simp [ahead_of_fetch hfetch, hahead]
      exact (h.fetch (by simp [hahead]) hfetch).fetch hr₁ hpeek
  · rename_i hahead
    exact h.fetch (by simp [hahead]) hpeek
  · obtain ⟨-, rfl⟩ := Prod.mk.inj hpeek
    exact h

/-- Taking a token keeps what a reader tracks, as its event has moved to the trail before. -/
theorem Tracks.drop (h : r.Tracks trail) (t : Token) : (r.drop t).Tracks trail := by
  refine ⟨h.records, ?_⟩
  have hshort := h.short
  rw [Reader.drop]
  split
  · exact hshort
  · simp only [List.length_tail]
    omega

end Reader

/-- A silent rule keeps what a reader tracks. -/
theorem Rule.Silent.tracks {α : Type} {x : Rule α} (h : x.Silent) {r r' : Reader Cursor} {a : α}
    {trail : List Event} (hr : r.Tracks trail) (hrun : x.run r = (.ok a, r')) :
    r'.Tracks trail :=
  h.preserves (fun _ _ _ => Reader.Tracks.peek) (fun _ _ _ => Reader.Tracks.peekSecond)
    (fun _ t h => h.drop t) hr hrun

namespace Reader

variable {r r' : Reader Cursor} {trail : List Event} {t : Token} {held : List Token}
  {fault : Option LexError}

/-- Where the next two tokens are `Quiet`, the trail lacks the events of all tokens held. -/
theorem Tracks.eq (h : r.Tracks trail) (hr : r.Holds held fault)
    (hquiet : Quiet (symbols (held.take 2))) :
    trail = r.events ++ held.flatMap Event.ofToken := by
  obtain ⟨given, fault', hgives, htrail⟩ := h.records
  obtain ⟨seen, ends, given', hahead, rfl, -, -, hgives'⟩ := hr
  obtain rfl := eq_of_gives hgives hgives'
  have hlength := h.short
  rw [hahead, List.length_append] at hlength
  rw [List.take_append, List.take_of_length_le (by omega), symbols_append, quiet_append] at hquiet
  have hseen : seen.flatMap Event.ofToken = [] := (Names.of_quiet hquiet.1).events
  rw [htrail, List.flatMap_append, hseen, List.nil_append]

/-- An event that is noted there by `note` stands before the events of all tokens held. -/
theorem Tracks.note (h : r.Tracks trail) (hr : r.Holds held fault)
    (hquiet : Quiet (symbols (held.take 2))) (e : Event) :
    (r.note e).Tracks (r.events ++ e :: held.flatMap Event.ofToken) := by
  obtain ⟨given, fault', hgives, htrail⟩ := h.records
  rw [h.eq hr hquiet] at htrail
  refine ⟨⟨given, fault', hgives, ?_⟩, h.short⟩
  rw [List.append_cancel_left htrail]
  simp [Reader.note]

end Reader

/-! ## Items -/

/-- The `Kind` of token that an item starts with. -/
def Item.opening : Item → Kind
  | .module m => if m.annots = [] then .ident else .annotOpen
  | .external _ => .ident

/-- No item starts with a semicolon. -/
theorem Item.opening_ne_semicolon (i : Item) : i.opening ≠ .semicolon := by
  cases i with
  | module m =>
    show (if m.annots = [] then Kind.ident else .annotOpen) ≠ .semicolon
    split <;> simp
  | external e => exact nofun

/-- The events of reading an item: where it starts (`Event.item`), and the calls of builtin commands
within it. -/
def Item.events (i : Item) : List Event :=
  .item i.span.line i.span.column i.opening :: i.builtinCalls.map BuiltinCall.event

/-- A span that encloses tokens starts with the first of them, so it has the same
`startPosition`. -/
theorem Span.Encloses.startPosition_eq {s : Span} {w : List Token} {t : Token} (h : s.Encloses w)
    (ht : w.head? = some t) : s.startPosition = t.span.startPosition := by
  obtain ⟨v, ⟨rest, rfl⟩, ⟨x, hx, z, -, rfl⟩, -⟩ := h.exists_covers
  rw [List.mem_head?_append_of_mem_head? hx] at ht
  obtain rfl : x = t := Option.some.inj ht
  rfl

/-- The first two symbols of an item tell its `opening`, and neither is the name of a builtin
command. -/
theorem Derivation.Top.exists_opening (d : Derivation.Top) {i : Item} (h : erase i = d.tree) :
    ∃ a b y, d.yield = a :: b :: y ∧ a.kind = i.opening ∧ Quiet [a, b] := by
  cases d with
  | external names origin semi =>
    cases i with
    | module m => exact nomatch h
    | external e => exact ⟨_, _, _, rfl, rfl, by simp⟩
  | module annots name refs members semi =>
    cases i with
    | external e => exact nomatch h
    | module m =>
      have hannots : erase m.annots = annots.map Annot.tree :=
        congrArg Module.annots (Item.module.inj h)
      cases annots with
      | nil =>
        have hnil : m.annots = [] := List.map_eq_nil_iff.1 hannots
        exact ⟨_, _, _, rfl, by simp [Item.opening, hnil], by simp⟩
      | cons a annots =>
        have hne : m.annots ≠ [] := by
          intro hnil
          rw [hnil] at hannots
          exact nomatch hannots
        exact ⟨_, _, _, rfl, by simp [Item.opening, hne], by simp⟩

namespace Item.ReadFrom

variable {w : List Token} {i : Item}

/-- An item starts with a token of the kind `opening`, at its own place, and neither this nor the
next is the name of a builtin command. -/
theorem exists_opening (h : i.ReadFrom w) :
    ∃ t x v, w = t :: x :: v ∧ t.kind = i.opening ∧ t.span.startPosition = i.span.startPosition ∧
      Quiet (symbols [t, x]) := by
  obtain ⟨d, hd, htree⟩ := h.derives
  obtain ⟨a, b, y, hyield, hkind, hquiet⟩ := d.exists_opening htree
  have hw : w.map Token.symbol = a :: b :: y := hd.symm.trans hyield
  obtain ⟨t, w₁, rfl, rfl, hw₁⟩ := List.map_eq_cons_iff.1 hw
  obtain ⟨x, v, rfl, rfl, -⟩ := List.map_eq_cons_iff.1 hw₁
  exact ⟨t, x, v, rfl, hkind, (h.chunk.encloses.startPosition_eq rfl).symm, hquiet⟩

end Item.ReadFrom

/-- Where the next two tokens are `Quiet`, looking at the next changes nothing of the trail. -/
theorem Reader.events_of_peek {r r' : Reader Cursor} {held : List Token} {fault : Option LexError}
    {trail : List Event} {t : Token} (htracks : r.Tracks trail) (hr : r.Holds held fault)
    (hquiet : Quiet (symbols (held.take 2))) (hpeek : r.peek = (.ok t, r'))
    (hr' : r'.Holds held fault) : r'.events = r.events :=
  List.append_cancel_right
    (((htracks.peek hpeek).eq hr' hquiet).symm.trans (htracks.eq hr hquiet))

namespace Rule

open Reader

/-- Looking at the first token of an item and noting it, and the rest of the item, which is
`Silent`. -/
theorem run_item {r r' : Reader Cursor} {i : Item} (h : item.run r = (.ok i, r')) :
    ∃ t r₁, r.peek = (.ok t, r₁) ∧ ∃ x : Rule Item, x.Silent ∧
      x.run (r₁.note (.item t.span.line t.span.column t.kind)) = (.ok i, r') := by
  rw [item, run_bind] at h
  rcases hpeek : peek.run r with ⟨e | t, r₁⟩ <;> rw [hpeek] at h
  · simp at h
  · exact ⟨t, r₁, hpeek, _, by simp, h⟩

/-- Where the next two tokens are `Quiet`, an item adds its event to the trail and those of the
tokens that it takes. -/
theorem events_of_item {r r' : Reader Cursor} {i : Item} {w rest : List Token}
    {fault : Option LexError} {trail : List Event} (hr : r.Holds (w ++ rest) fault)
    (htracks : r.Tracks trail) (hquiet : Quiet (symbols ((w ++ rest).take 2)))
    (hrun : item.run r = (.ok i, r')) (hi : i.ReadFrom w) (hr' : r'.Holds rest fault)
    (hquiet' : Quiet (symbols (rest.take 2))) :
    (∃ trail', r'.Tracks trail') ∧ r'.events = r.events ++ i.events := by
  obtain ⟨t, r₁, hpeek, rule, hsilent, hrest⟩ := run_item hrun
  obtain ⟨x, y, v, rfl, hkind, hplace, -⟩ := hi.exists_opening
  obtain ⟨r₂, hpeek', hr₁, -⟩ : ∃ r₂, r.peek = (.ok x, r₂) ∧
      r₂.Holds (x :: y :: v ++ rest) fault ∧ _ := peek_of_cons hr
  obtain ⟨rfl, rfl⟩ : t = x ∧ r₁ = r₂ := by simpa [hpeek] using hpeek'
  have hnoted := hsilent.tracks ((htracks.peek hpeek).note hr₁ hquiet _) hrest
  refine ⟨⟨_, hnoted⟩, ?_⟩
  -- the events of the tokens behind the item are still to come
  have hall := hnoted.eq hr' hquiet'
  have hline : t.span.line = i.span.line := congrArg Position.line hplace
  have hcolumn : t.span.column = i.span.column := congrArg Position.column hplace
  rw [events_of_peek htracks hr hquiet hpeek hr₁, List.flatMap_append, hi.chunk.names.events,
    hkind, hline, hcolumn, ← List.cons_append, ← List.append_assoc] at hall
  exact (List.append_cancel_right hall).symm

/-! ## Documents -/

/-- The tokens of all items are their chunks (`EachFrom`), up to the end of the text. -/
theorem readFrom_items {held : List Token} : Takes [] held items fun w rest is =>
    EachFrom (fun v i => i.ReadFrom v) w is ∧ ∃ t ts, rest = t :: ts ∧ t.kind = .eof :=
  Takes.entries steady_items fun _ => readFrom_item

/-- What items are read from starts with two tokens that are `Quiet`, or there is none. -/
theorem quiet_of_items {r r' : Reader Cursor} {n : Nat} {held : List Token}
    {fault : Option LexError} {is : List Item} (hr : r.Between n [] held fault)
    (hrun : items.run r = (.ok is, r')) : Quiet (symbols (held.take 2)) := by
  obtain ⟨w, rest, rfl, hr', heach, t, ts, rfl, ht⟩ := readFrom_items r r' n fault is hr hrun
  obtain ⟨-, rfl, -⟩ := hr'.holds.eof_cases ht
  cases heach with
  | nil => simp [ht]
  | cons head tail =>
    obtain ⟨x, y, v, rfl, -, -, hquiet⟩ := head.exists_opening
    exact hquiet

/-- Reading `items` looks at the next token, and ends there or reads an item and goes on behind its
chunk. -/
theorem items_cases {r r' : Reader Cursor} {n : Nat} {held : List Token} {fault : Option LexError}
    {is : List Item} (hr : r.Between n [] held fault) (hrun : items.run r = (.ok is, r')) :
    ∃ t r₁, r.peek = (.ok t, r₁) ∧ r₁.Between n [] held fault ∧ ((is = [] ∧ r₁ = r') ∨
      ∃ i is' w rest r₂, is = i :: is' ∧ held = w ++ rest ∧ i.ReadFrom w ∧
        item.run r₁ = (.ok i, r₂) ∧ r₂.Between (endOf n w) [] rest fault ∧
        items.run r₂ = (.ok is', r')) := by
  obtain ⟨w, rest, rfl, -, heach, z, ts, rfl, -⟩ := readFrom_items r r' n fault is hr hrun
  obtain ⟨t, ts', hheld⟩ : ∃ t ts', w ++ z :: ts = t :: ts' := by cases w <;> simp
  rw [hheld] at hr ⊢
  obtain ⟨r₁, hpeek, hr₁, -⟩ := peek_of_cons hr.holds
  have hbetween : r₁.Between n [] (t :: ts') fault :=
    ⟨hr₁, (lastEnd_of_peek hpeek).trans hr.lastEnd⟩
  refine ⟨t, r₁, hpeek, hbetween, ?_⟩
  by_cases ht : t.kind = .eof
  · obtain ⟨rfl, rfl⟩ : [] = is ∧ r₁ = r' := by simpa [run_items_of_eof hpeek ht] using hrun
    exact .inl ⟨rfl, rfl⟩
  · rw [(run_items_of_ne hr.holds hpeek ht).1, run_bind] at hrun
    rcases hitem : item.run r₁ with ⟨e | i, r₂⟩ <;> rw [hitem] at hrun
    · simp at hrun
    · rcases hitems : items.run r₂ with ⟨e | is', r₃⟩ <;> simp only [run_bind, hitems] at hrun
      · simp at hrun
      · obtain ⟨rfl, rfl⟩ : i :: is' = is ∧ r₃ = r' := by simpa using hrun
        obtain ⟨v, rest, hsplit, hr₂, hi⟩ := readFrom_item r₁ r₂ n fault i hbetween hitem
        rw [List.nil_append, ← List.append_nil v] at hr₂
        exact .inr ⟨i, is', v, rest, r₂, rfl, hsplit, hi, rfl, between_append.1 hr₂, hitems⟩

/-- Items add their events to the trail, one after the other (`events_of_item`). -/
theorem events_of_items {r r' : Reader Cursor} {n : Nat} {held : List Token}
    {fault : Option LexError} {is : List Item} {trail : List Event}
    (hr : r.Between n [] held fault) (htracks : r.Tracks trail)
    (hrun : items.run r = (.ok is, r')) :
    r'.events = r.events ++ is.flatMap Item.events := by
  induction is generalizing r n held trail with
  | nil =>
    obtain ⟨t, r₁, hpeek, hr₁, ⟨-, rfl⟩ | ⟨i, is', _, _, _, hcons, -⟩⟩ := items_cases hr hrun
    · have hevents := events_of_peek htracks hr.holds (quiet_of_items hr hrun) hpeek hr₁.holds
      rw [hevents, List.flatMap_nil, List.append_nil]
    · simp at hcons
  | cons i is ih =>
    obtain ⟨t, r₁, hpeek, hr₁, ⟨hnil, -⟩ | ⟨_, _, w, rest, r₂, hcons, rfl, hi, hitem, hr₂, hmore⟩⟩
      := items_cases hr hrun
    · simp at hnil
    · obtain ⟨rfl, rfl⟩ := List.cons.inj hcons
      have hquiet := quiet_of_items hr hrun
      obtain ⟨⟨trail', htracks'⟩, hevents⟩ := events_of_item hr₁.holds (htracks.peek hpeek) hquiet
        hitem hi hr₂.holds (quiet_of_items hr₂ hmore)
      rw [ih hr₂ htracks' hmore, hevents,
        events_of_peek htracks hr.holds hquiet hpeek hr₁.holds, List.flatMap_cons,
        List.append_assoc]

end Rule

end Gxl
