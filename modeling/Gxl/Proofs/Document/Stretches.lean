import Gxl.Proofs.Document.Nodes
import Gxl.Token

/-!
# Nodes and the tokens they are read from

A node is read from a stretch of tokens.  Its span goes from the start of the first of them to the
end of the last, the nodes directly below it are read from stretches of these tokens, one behind the
other, and a leaf is a single token.

A forest is read from tokens if all of this holds for all of its nodes.  Forests that are read from
tokens one behind the other make up one that is read from all of them, and tokens that belong to no
node may stand anywhere between.
-/

namespace Gxl

/-- A span covers tokens: it goes from the `start` of the first to the `stop` of the last. -/
def Span.Covers (s : Span) (u : List Token) : Prop :=
  ∃ t ∈ u.head?, ∃ z ∈ u.getLast?, s = { t.span with stop := z.span.stop }

/-- A token is covered by its own span. -/
theorem Span.Covers.singleton (t : Token) : t.span.Covers [t] :=
  ⟨t, rfl, t, rfl, rfl⟩

/-- Spans that cover stretches of the tokens, one behind the other (`Span.Covers`). -/
inductive InRow : List Token → List Span → Prop where
  | nil (u : List Token) : InRow u []
  | cons {skipped u rest : List Token} {s : Span} {ss : List Span} (covers : s.Covers u)
      (row : InRow rest ss) : InRow (skipped ++ (u ++ rest)) (s :: ss)

namespace InRow

variable {u v : List Token} {ss ss' : List Span}

/-- Tokens that no span covers may stand before spans in a row. -/
theorem behind (h : InRow v ss) (u : List Token) : InRow (u ++ v) ss := by
  cases h with
  | nil => exact .nil _
  | cons covers row =>
    rw [← List.append_assoc]
    exact .cons covers row

/-- Rows of spans over `u` and over `v` make one row over both. -/
theorem append (h : InRow u ss) (h' : InRow v ss') : InRow (u ++ v) (ss ++ ss') := by
  induction h with
  | nil u => exact h'.behind u
  | cons covers _ ih =>
    rw [List.append_assoc, List.append_assoc]
    exact .cons covers ih

end InRow

/-- A node is read from tokens: its span covers them, its parts stand on them `InRow`, and a leaf
has the text of the only one. -/
structure Node.ReadFrom (n : Node) (u : List Token) : Prop where
  covers : n.span.Covers u
  parts : InRow u n.parts
  text : ∀ s ∈ n.text, ∃ t, u = [t] ∧ t.text = s

/-- A forest is read from tokens: its roots stand on them `InRow`, and every node is read from a
stretch of them. -/
structure Forest.ReadFrom (f : Forest) (u : List Token) : Prop where
  roots : InRow u f.roots
  nodes : ∀ n ∈ f.nodes, ∃ v, v <:+: u ∧ n.ReadFrom v

namespace Forest.ReadFrom

variable {f g : Forest} {u v : List Token} {s : Span}

/-- No nodes, `∅`, are read from any tokens. -/
theorem empty (u : List Token) : (∅ : Forest).ReadFrom u :=
  ⟨.nil u, fun _ hn => absurd hn List.not_mem_nil⟩

/-- Forests that are read from `u` and from `v` make one that is read from both. -/
theorem append (hf : f.ReadFrom u) (hg : g.ReadFrom v) : (f ++ g).ReadFrom (u ++ v) := by
  refine ⟨hf.roots.append hg.roots, fun n hn => ?_⟩
  rcases List.mem_append.1 hn with hn | hn
  · obtain ⟨w, hw, hread⟩ := hf.nodes n hn
    exact ⟨w, hw.trans (List.prefix_append u v).isInfix, hread⟩
  · obtain ⟨w, hw, hread⟩ := hg.nodes n hn
    exact ⟨w, hw.trans (List.suffix_append u v).isInfix, hread⟩

/-- More tokens `v` may follow. -/
theorem before (hf : f.ReadFrom u) (v : List Token) : f.ReadFrom (u ++ v) := by
  have hf' := hf.append (.empty v)
  rwa [Forest.append_empty] at hf'

/-- A node over a forest is read from the tokens of the forest, if its span covers them. -/
theorem node (hf : f.ReadFrom u) (hs : s.Covers u) : (Forest.node s f).ReadFrom u := by
  refine ⟨?_, List.forall_mem_cons.2 ⟨⟨u, List.infix_rfl, hs, hf.roots, by simp⟩, hf.nodes⟩⟩
  have hrow : InRow ([] ++ (u ++ [])) [s] := .cons hs (.nil [])
  rwa [List.append_nil] at hrow

/-- A leaf is read from the token whose span and text it has. -/
theorem leaf (t : Token) : (Forest.leaf t.span t.text).ReadFrom [t] := by
  have hrow : InRow ([] ++ ([t] ++ [])) [t.span] := .cons (.singleton t) (.nil [])
  refine ⟨hrow, List.forall_mem_singleton.2 ⟨[t], List.infix_rfl, .singleton t, .nil _, ?_⟩⟩
  intro s hs
  exact ⟨t, rfl, Option.some.inj hs⟩

end Forest.ReadFrom

/-! ## One behind the other -/

/-- Pieces of tree are read one behind the other, each from tokens of its own, as `R` says of
one. -/
inductive EachFrom {α : Type} (R : List Token → α → Prop) : List Token → List α → Prop where
  | nil : EachFrom R [] []
  | cons {u v : List Token} {a : α} {as : List α} (head : R u a) (tail : EachFrom R v as) :
      EachFrom R (u ++ v) (a :: as)

namespace EachFrom

variable {α : Type} {R : List Token → α → Prop} {u : List Token} {as : List α}

/-- Each of the pieces is read from a stretch of the tokens. -/
theorem exists_stretch (h : EachFrom R u as) {a : α} (ha : a ∈ as) : ∃ v, v <:+: u ∧ R v a := by
  induction h with
  | nil => exact absurd ha List.not_mem_nil
  | @cons u v b bs head _ ih =>
    rcases List.mem_cons.1 ha with rfl | ha
    · exact ⟨u, (List.prefix_append u v).isInfix, head⟩
    · obtain ⟨w, hw, hR⟩ := ih ha
      exact ⟨w, hw.trans (List.suffix_append u v).isInfix, hR⟩

/-- If `R` says that the forests of pieces are read from their tokens, the forests side by side are
read from all the tokens. -/
theorem readFrom {forest : α → Forest}
    (h : EachFrom (fun u a => (forest a).ReadFrom u) u as) :
    (Forest.ofList forest as).ReadFrom u := by
  induction h with
  | nil => exact .empty []
  | cons head _ ih => exact head.append ih

end EachFrom

end Gxl
