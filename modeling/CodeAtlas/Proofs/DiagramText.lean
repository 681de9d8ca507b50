import CodeAtlas.Diagram.Calls
import CodeAtlas.Diagram.Files
import CodeAtlas.Diagram.Sequence
import CodeAtlas.Proofs.TextCuts
import CodeAtlas.Proofs.TextPieces
import Mathlib.Data.List.Nodup
import Std.Data.String.ToNat

/-!
# Diagrams stay intact

Names, files and keywords go into the text of a diagram as they were found. This file shows that they cannot break
it. A label is plain, so it ends neither its line nor its quotes; and whatever a chart is drawn from, its edges and
styles name nodes that it has.

* `Plain`, `plain_sanitizeLabel`: a text in which no character ends a label;
* `sanitizeText_eq_foldl`: the characters of a label are replaced one after another;
* `Flowchart.Sound`: the labels of a chart are plain, and its edges and styles name its nodes; each step of drawing
  keeps this (`Sound.node`, `Sound.edge`, `Sound.style`), and so does each kind of chart;
* `Diagram.ReadsAsFlowchart`, `Diagram.ReadsAsSequence`: what is read off a text line by line;
* `diagrams_stay_intact`: every diagram reads as one, whatever it is drawn from.
-/

namespace CodeAtlas

/-! ### Texts on one line -/

/-- No character of a text ends a line. -/
def OneLine (s : String) : Prop :=
  '\n' ∉ s.toList

/-- No character of a text ends a line, a pair of quotes or a pair of brackets. -/
def Plain (s : String) : Prop :=
  ∀ c ∈ s.toList, c ≠ '"' ∧ c ≠ '[' ∧ c ≠ ']' ∧ c ≠ '\n'

theorem OneLine.append {s t : String} (hs : OneLine s) (ht : OneLine t) : OneLine (s ++ t) := by
  intro h
  rw [String.toList_append, List.mem_append] at h
  exact h.elim hs ht

theorem Plain.append {s t : String} (hs : Plain s) (ht : Plain t) : Plain (s ++ t) := by
  intro c h
  rw [String.toList_append, List.mem_append] at h
  exact h.elim (hs c) (ht c)

theorem Plain.oneLine {s : String} (h : Plain s) : OneLine s :=
  fun hmem => (h '\n' hmem).2.2.2 rfl

theorem isDigit_of_mem_toString {n : Nat} {c : Char} (h : c ∈ (toString n).toList) : c.isDigit = true := by
  rw [Nat.toString_eq_repr, Nat.toList_repr] at h
  exact Nat.isDigit_of_mem_toDigits (by decide) (by decide) h

theorem oneLine_toString (n : Nat) : OneLine (toString n) := by
  intro h
  have hdigit := isDigit_of_mem_toString h
  revert hdigit
  decide

/-! ### Labels -/

theorem newline_not_mem_flatten (text : Text) : '\n' ∉ flatten text := by
  intro h
  have h := Text.mem_of_mem_trim h
  rw [List.mem_map] at h
  obtain ⟨c, -, hc⟩ := h
  split at hc
  · exact absurd hc (by decide)
  · rename_i hother
    simp [hc] at hother

theorem mem_shorten {c : Char} {text : Text} (h : c ∈ shorten text) : c ∈ text ∨ c = '.' := by
  rw [shorten] at h
  split at h
  · rcases List.mem_append.mp h with h | h
    · exact .inl (List.mem_of_mem_take h)
    · exact .inr (by simpa using h)
  · exact .inl h

/-- What stands for a character is plain, unless it is a line feed. -/
theorem plain_of_mem_labelChar {c d : Char} (hd : d ≠ '\n') (h : c ∈ labelChar d) :
    c ≠ '"' ∧ c ≠ '[' ∧ c ≠ ']' ∧ c ≠ '\n' := by
  unfold labelChar at h
  split_ifs at h with hamp hquot hlt hgt hopen hclose
  · exact (by simp [Plain] : Plain "#amp;") c h
  · exact (by simp [Plain] : Plain "#quot;") c h
  · exact (by simp [Plain] : Plain "#lt;") c h
  · exact (by simp [Plain] : Plain "#gt;") c h
  · exact (by simp [Plain] : Plain "#91;") c h
  · exact (by simp [Plain] : Plain "#93;") c h
  · obtain rfl := List.mem_singleton.mp h
    exact ⟨by simpa using hquot, by simpa using hopen, by simpa using hclose, hd⟩

/-- **A label is plain**, whatever it is made from. -/
theorem plain_sanitizeLabel (s : String) : Plain (sanitizeLabel s) := by
  intro c hc
  rw [sanitizeLabel, Text.onString, String.toList_ofList, sanitizeText, List.mem_flatMap] at hc
  obtain ⟨d, hd, hc⟩ := hc
  refine plain_of_mem_labelChar ?_ hc
  rintro rfl
  rcases mem_shorten hd with hd | hd
  · exact newline_not_mem_flatten s.toList hd
  · exact absurd hd (by decide)

theorem plain_symbolLabel (symbol : SymbolId) : Plain (Flowchart.symbolLabel symbol) :=
  ((plain_sanitizeLabel _).append (by simp [Plain])).append (plain_sanitizeLabel _)

/-! ### Replacing one character after another -/

/-- A text with another one in the place of each occurrence of a character. -/
def Text.replaceChar (form : Char × Text) (text : Text) : Text :=
  text.flatMap fun c => if c == form.1 then form.2 else [c]

/-- What stands for a character by a table of replacements. -/
def standIn (forms : List (Char × Text)) (c : Char) : Text :=
  (forms.lookup c).getD [c]

/-- The characters that a label does not hold, with what stands for them. -/
def labelForms : List (Char × Text) :=
  [('&', "#amp;".toList), ('"', "#quot;".toList), ('<', "#lt;".toList), ('>', "#gt;".toList), ('[', "#91;".toList),
    (']', "#93;".toList)]

theorem standIn_cons (d : Char) (new : Text) (rest : List (Char × Text)) (c : Char) :
    standIn ((d, new) :: rest) c = if c == d then new else standIn rest c := by
  rw [standIn, List.lookup_cons]
  cases c == d with
  | true => rfl
  | false => rfl

theorem flatMap_standIn_eq_self {forms : List (Char × Text)} {text : Text} (h : ∀ form ∈ forms, form.1 ∉ text) :
    text.flatMap (standIn forms) = text := by
  have hkept : ∀ c ∈ text, standIn forms c = [c] := by
    intro c hc
    rw [standIn, List.lookup_eq_none_iff.mpr, Option.getD_none]
    intro form hform
    simpa using fun heq : c = form.1 => h form hform (heq ▸ hc)
  rw [List.flatMap_congr hkept]
  exact List.flatMap_singleton' text

/-- Replacing one character after another comes to replacing them all at once, as long as no replacement brings in
a character that is replaced later. -/
theorem foldl_replaceChar {forms : List (Char × Text)} (h : forms.Pairwise fun f g => g.1 ∉ f.2) (text : Text) :
    forms.foldl (fun text form => text.replaceChar form) text = text.flatMap (standIn forms) := by
  induction forms generalizing text with
  | nil => exact (List.flatMap_singleton' text).symm
  | cons form rest ih =>
    obtain ⟨hform, hrest⟩ := List.pairwise_cons.mp h
    rw [List.foldl_cons, ih hrest, Text.replaceChar, List.flatMap_assoc]
    refine List.flatMap_congr fun c _ => ?_
    rw [standIn_cons form.1 form.2]
    split_ifs
    · exact flatMap_standIn_eq_self hform
    · exact List.append_nil _

theorem standIn_labelForms : standIn labelForms = labelChar := by
  funext c
  simp only [labelForms, standIn_cons, labelChar]
  rfl

/-- **A label by one replacement after another.** The forms bring in no character that a later one replaces, so the
replacements can be made in turn. -/
theorem sanitizeText_eq_foldl (text : Text) :
    sanitizeText text = labelForms.foldl (fun text form => text.replaceChar form) (shorten (flatten text)) := by
  have hforms : labelForms.Pairwise fun f g => g.1 ∉ f.2 := by decide
  rw [foldl_replaceChar hforms, standIn_labelForms, sanitizeText]

/-! ### Sound charts -/

namespace Flowchart

/-- A chart has a node with a number. -/
def Declares (chart : Flowchart) (number : Nat) : Prop :=
  1 ≤ number ∧ number ≤ chart.nodes.length

/-- The labels of a chart are plain, its edges are apart, and what its edges and styles name it has. So it has the
given numbers, which a caller still holds. -/
structure Sound (chart : Flowchart) (held : List Nat) : Prop where
  labels : ∀ node ∈ chart.nodes, Plain node.label
  edges : ∀ e ∈ chart.edges, chart.Declares e.source ∧ chart.Declares e.target
  apart : chart.edges.Nodup
  styles : ∀ mark ∈ chart.styles, chart.Declares mark.1
  held : ∀ number ∈ held, chart.Declares number

/-- What looking up a node does: it is there, or it is added at the end. -/
theorem node_cases (chart : Flowchart) (key label : String) :
    (∃ i, chart.nodes.findIdx? (·.key == key) = some i ∧ chart.node key label = (i + 1, chart)) ∨
      chart.nodes.findIdx? (·.key == key) = none ∧
        chart.node key label
          = (chart.nodes.length + 1, { chart with nodes := chart.nodes ++ [⟨key, label⟩] }) := by
  rw [node]
  cases chart.nodes.findIdx? (·.key == key) with
  | none => exact .inr ⟨rfl, rfl⟩
  | some i => exact .inl ⟨i, rfl, rfl⟩

theorem sound_empty (direction : Direction) : Sound { direction := direction } [] where
  labels _ h := by cases h
  edges _ h := by cases h
  apart := List.nodup_nil
  styles _ h := by cases h
  held _ h := by cases h

namespace Sound

variable {chart : Flowchart} {held : List Nat}

theorem mono (h : chart.Sound held) {fewer : List Nat} (hsub : ∀ n ∈ fewer, n ∈ held) : chart.Sound fewer :=
  { h with held := fun n hn => h.held n (hsub n hn) }

/-- The number of a node that is looked up may be held from then on. -/
theorem node (h : chart.Sound held) (key : String) {label : String} (hlabel : Plain label) :
    (chart.node key label).2.Sound ((chart.node key label).1 :: held) := by
  rcases chart.node_cases key label with ⟨i, hfind, hnode⟩ | ⟨-, hnode⟩
  · rw [hnode]
    have hi : i < chart.nodes.length := (List.findIdx?_eq_some_iff_findIdx_eq.mp hfind).1
    refine { h with held := fun n hn => ?_ }
    rcases List.mem_cons.mp hn with rfl | hn
    · exact ⟨Nat.le_add_left 1 i, hi⟩
    · exact h.held n hn
  · rw [hnode]
    have hmore : ∀ n, chart.Declares n →
        Declares { chart with nodes := chart.nodes ++ [⟨key, label⟩] } n := by
      intro n hn
      refine ⟨hn.1, hn.2.trans ?_⟩
      rw [List.length_append]
      omega
    refine ⟨?_, fun e he => ⟨hmore _ (h.edges e he).1, hmore _ (h.edges e he).2⟩, h.apart,
      fun mark hmark => hmore _ (h.styles mark hmark), ?_⟩
    · intro node hnode
      rcases List.mem_append.mp hnode with hnode | hnode
      · exact h.labels node hnode
      · rw [List.mem_singleton.mp hnode]
        exact hlabel
    · intro n hn
      rcases List.mem_cons.mp hn with rfl | hn
      · exact ⟨by omega, by simp⟩
      · exact hmore n (h.held n hn)

theorem edge {source target : Nat} (h : chart.Sound held) (hsource : source ∈ held) (htarget : target ∈ held)
    (arrow : Arrow) : (chart.edge source target arrow).Sound held := by
  rw [Flowchart.edge]
  split
  · exact h
  · rename_i hnew
    refine { h with edges := ?_, apart := ?_ }
    · intro e he
      rcases List.mem_append.mp he with he | he
      · exact h.edges e he
      · rw [List.mem_singleton.mp he]
        exact ⟨h.held _ hsource, h.held _ htarget⟩
    · rw [List.nodup_append]
      refine ⟨h.apart, List.nodup_singleton _, ?_⟩
      rintro e he e' he' rfl
      rw [List.mem_singleton.mp he'] at he
      exact hnew (by simpa using he)

theorem style {number : Nat} (h : chart.Sound held) (hnumber : number ∈ held) (style : NodeStyle) :
    (chart.style number style).Sound held := by
  rw [Flowchart.style]
  split
  · exact h
  · refine { h with styles := ?_ }
    intro mark hmark
    rcases List.mem_append.mp hmark with hmark | hmark
    · exact h.styles mark hmark
    · rw [List.mem_singleton.mp hmark]
      exact h.held _ hnumber

theorem symbolNode (h : chart.Sound held) (symbol : SymbolId) :
    (chart.symbolNode symbol).2.Sound ((chart.symbolNode symbol).1 :: held) :=
  h.node _ (plain_symbolLabel symbol)

/-- What one step of a drawing keeps, all steps keep. -/
theorem foldl {α : Type} {step : Flowchart → α → Flowchart}
    (hstep : ∀ {chart : Flowchart}, chart.Sound held → ∀ a, (step chart a).Sound held) (list : List α) :
    ∀ {chart : Flowchart}, chart.Sound held → (list.foldl step chart).Sound held := by
  induction list with
  | nil => exact fun h => h
  | cons a rest ih => exact fun h => ih (hstep h a)

/-! ### The steps of each kind of chart -/

theorem visit (h : chart.Sound held) (visited : CallTreeNode × Option CallTreeNode) :
    (chart.visit visited).Sound held := by
  obtain ⟨node, parent⟩ := visited
  have hnode := h.symbolNode node.symbol
  cases parent with
  | none => exact hnode.mono fun n hn => List.mem_cons_of_mem _ hn
  | some parent =>
    have hboth := hnode.symbolNode parent.symbol
    have hedge := hboth.edge List.mem_cons_self (List.mem_cons_of_mem _ List.mem_cons_self) .call
    exact hedge.mono fun n hn => List.mem_cons_of_mem _ (List.mem_cons_of_mem _ hn)

theorem tree (h : chart.Sound held) (tree : CallTree) :
    (chart.tree tree).2.Sound ((chart.tree tree).1 :: held) :=
  foldl visit _ (h.symbolNode tree.root.symbol)

theorem symbols (list : List SymbolId) :
    ∀ {chart : Flowchart} {held : List Nat}, chart.Sound held →
      (chart.symbols list).2.Sound ((chart.symbols list).1 ++ held) := by
  induction list with
  | nil => exact fun h => h
  | cons symbol rest ih =>
    intro chart held h
    refine (ih (h.symbolNode symbol)).mono fun n hn => ?_
    show n ∈ ((chart.symbolNode symbol).2.symbols rest).1 ++ (chart.symbolNode symbol).1 :: held
    have hn : n ∈ (chart.symbolNode symbol).1 :: ((chart.symbolNode symbol).2.symbols rest).1 ++ held := hn
    simp only [List.cons_append, List.mem_cons, List.mem_append] at hn ⊢
    tauto

theorem chain (ids : List Nat) :
    ∀ {chart : Flowchart}, chart.Sound held → (∀ n ∈ ids, n ∈ held) → (chart.chain ids).Sound held := by
  induction ids with
  | nil => exact fun h _ => h
  | cons a rest ih =>
    intro chart h hheld
    cases rest with
    | nil => exact h
    | cons b rest =>
      have hedge := h.edge (hheld a List.mem_cons_self)
        (hheld b (List.mem_cons_of_mem _ List.mem_cons_self)) .call
      exact ih hedge fun n hn => hheld n (List.mem_cons_of_mem _ hn)

theorem path (h : chart.Sound held) (steps : List PathStep) : (chart.path steps).Sound held := by
  have hsymbols := symbols (steps.map PathStep.symbol) h
  rw [Flowchart.path]
  generalize chart.symbols (steps.map PathStep.symbol) = drawn at hsymbols ⊢
  obtain ⟨ids, chart⟩ := drawn
  have hchain := chain ids hsymbols fun n hn => List.mem_append_left held hn
  dsimp only
  split
  · rename_i first last hfirst hlast
    have hfirst : first ∈ ids ++ held := List.mem_append_left held (List.mem_of_mem_head? hfirst)
    have hlast : last ∈ ids ++ held := List.mem_append_left held (List.mem_of_getLast? hlast)
    have hstyled := hchain.style hfirst .root
    split
    · exact hstyled.mono fun n hn => List.mem_append_right ids hn
    · exact (hstyled.style hlast .target).mono fun n hn => List.mem_append_right ids hn
  · exact hchain.mono fun n hn => List.mem_append_right ids hn

theorem members {keyword : Nat} (h : chart.Sound held) (hkeyword : keyword ∈ held) (list : List SymbolId) :
    (chart.members keyword list).Sound held := by
  refine foldl (fun {chart} h symbol => ?_) list h
  have hedge := (h.symbolNode symbol).edge (List.mem_cons_of_mem _ hkeyword) List.mem_cons_self .grouping
  exact hedge.mono fun n hn => List.mem_cons_of_mem _ hn

theorem keywordGroup {concept : Nat} (h : chart.Sound held) (hconcept : concept ∈ held) (group : KeywordGroup) :
    (chart.keywordGroup concept group).Sound held := by
  have hkeyword := h.node ("keyword:" ++ group.keyword) (plain_sanitizeLabel group.keyword)
  have hedge := (hkeyword.style List.mem_cons_self .keyword).edge (List.mem_cons_of_mem _ hconcept)
    List.mem_cons_self .grouping
  exact (hedge.members List.mem_cons_self _).mono fun n hn => List.mem_cons_of_mem _ hn

theorem fileNode (h : chart.Sound held) (file : String) :
    (chart.fileNode file).2.Sound ((chart.fileNode file).1 :: held) :=
  h.node _ (plain_sanitizeLabel file)

end Sound

end Flowchart

/-! ### Reading a text line by line -/

/-- Lines that are lines are read back from their text. -/
theorem splitOn_intercalate_lines {lines : List String} (hne : lines ≠ []) (h : ∀ line ∈ lines, OneLine line) :
    ("\n".intercalate lines).toList.splitOn '\n' = lines.map String.toList := by
  rw [String.toList_intercalate]
  refine List.splitOn_intercalate '\n' ?_ (by simpa using hne)
  intro text htext
  obtain ⟨line, hline, rfl⟩ := List.mem_map.mp htext
  exact h line hline

/-- A line among lines that are numbered by their places. -/
theorem mem_of_numbered {α β : Type} {f : α × Nat → β} {list : List α} {i : Nat} {line : β}
    (h : (list.zipIdx.map f)[i]? = some line) : ∃ a ∈ list, line = f (a, i) := by
  rw [List.getElem?_map, Option.map_eq_some_iff] at h
  obtain ⟨⟨a, k⟩, ha, rfl⟩ := h
  rw [List.getElem?_zipIdx, Option.map_eq_some_iff] at ha
  obtain ⟨a, ha, hpair⟩ := ha
  rw [Nat.zero_add] at hpair
  exact ⟨a, List.mem_of_getElem? ha, congrArg f hpair.symm⟩

theorem not_mem_toString {c : Char} (hc : c.isDigit = false) (n : Nat) : c ∉ (toString n).toList := by
  intro h
  rw [isDigit_of_mem_toString h] at hc
  cases hc

theorem toString_toList_inj {m n : Nat} (h : (toString m).toList = (toString n).toList) : m = n := by
  rw [String.toList_inj, Nat.toString_eq_repr, Nat.toString_eq_repr, Nat.repr_inj] at h
  exact h

namespace Flowchart

/-- The line declares the node with a number, and its label stays within its quotes. -/
def IsNodeLine (number : Nat) (line : String) : Prop :=
  ∃ label, Plain label ∧ line = "    " ++ nodeName number ++ "[\"" ++ label ++ "\"]"

/-- The line draws an arrow between two of the first `count` nodes. -/
def IsEdgeLine (count : Nat) (line : String) : Prop :=
  ∃ source target, (1 ≤ source ∧ source ≤ count) ∧ (1 ≤ target ∧ target ≤ count) ∧
    ∃ arrow : Arrow, line = "    " ++ nodeName source ++ " " ++ arrow.token ++ " " ++ nodeName target

/-- The line marks one of the first `count` nodes. -/
def IsStyleLine (count : Nat) (line : String) : Prop :=
  ∃ number, (1 ≤ number ∧ number ≤ count) ∧
    ∃ style : NodeStyle, line = "    style " ++ nodeName number ++ " " ++ style.code

theorem oneLine_nodeName (number : Nat) : OneLine (nodeName number) :=
  (by simp [OneLine] : OneLine "n").append (oneLine_toString number)

theorem IsNodeLine.oneLine {number : Nat} {line : String} (h : IsNodeLine number line) : OneLine line := by
  obtain ⟨label, hlabel, rfl⟩ := h
  have hspace : OneLine "    " := by simp [OneLine]
  have hopen : OneLine "[\"" := by simp [OneLine]
  have hclose : OneLine "\"]" := by simp [OneLine]
  exact (((hspace.append (oneLine_nodeName number)).append hopen).append hlabel.oneLine).append hclose

theorem IsEdgeLine.oneLine {count : Nat} {line : String} (h : IsEdgeLine count line) : OneLine line := by
  obtain ⟨source, target, -, -, arrow, rfl⟩ := h
  have hindent : OneLine "    " := by simp [OneLine]
  have hspace : OneLine " " := by simp [OneLine]
  have harrow : OneLine arrow.token := by cases arrow <;> simp [OneLine, Arrow.token]
  exact ((((hindent.append (oneLine_nodeName source)).append hspace).append harrow).append hspace).append
    (oneLine_nodeName target)

theorem IsStyleLine.oneLine {count : Nat} {line : String} (h : IsStyleLine count line) : OneLine line := by
  obtain ⟨number, -, style, rfl⟩ := h
  have hindent : OneLine "    style " := by simp [OneLine]
  have hspace : OneLine " " := by simp [OneLine]
  have hstyle : OneLine style.code := by cases style <;> simp [OneLine, NodeStyle.code]
  exact ((hindent.append (oneLine_nodeName number)).append hspace).append hstyle

/-- The line of an edge tells the edge. -/
theorem edgeLine_injective : Function.Injective edgeLine := by
  rintro ⟨a, b, arrow⟩ ⟨a', b', arrow'⟩ h
  have htext := congrArg String.toList h
  simp only [edgeLine, nodeName, String.toList_append, List.append_assoc, List.append_cancel_left_eq] at htext
  have hspace : ∀ n : Nat, ' ' ∉ (toString n).toList := not_mem_toString (by decide)
  obtain ⟨hsource, hrest⟩ := append_cons_inj_of_not_mem (hspace a) (hspace a') htext
  obtain rfl := toString_toList_inj hsource
  have harrow : ∀ arrow : Arrow, ' ' ∉ arrow.token.toList := by
    intro arrow
    cases arrow <;> simp [Arrow.token]
  obtain ⟨htoken, htarget⟩ := append_cons_inj_of_not_mem (harrow arrow) (harrow arrow') hrest
  obtain rfl : arrow = arrow' := by
    cases arrow <;> cases arrow' <;> simp [Arrow.token] at htoken ⊢
  obtain rfl := toString_toList_inj (List.append_cancel_left htarget)
  rfl

end Flowchart

/-- The lines of a diagram are those of a flowchart: a header, the nodes by their numbers from one, the edges and
the styles. -/
structure Diagram.FlowchartLines (d : Diagram) (nodes edges styles : List String) : Prop where
  split : d.text.toList.splitOn '\n'
    = (("graph " ++ d.direction.code) :: nodes ++ edges ++ styles).map String.toList
  nodeCount : nodes.length = d.nodeCount
  edgeCount : edges.length = d.edgeCount
  node : ∀ i line, nodes[i]? = some line → Flowchart.IsNodeLine (i + 1) line
  edge : ∀ line ∈ edges, Flowchart.IsEdgeLine d.nodeCount line
  apart : edges.Nodup
  style : ∀ line ∈ styles, Flowchart.IsStyleLine d.nodeCount line

/-- The text of a diagram, cut at its line feeds, is that of a flowchart. -/
def Diagram.ReadsAsFlowchart (d : Diagram) : Prop :=
  ∃ nodes edges styles, d.FlowchartLines nodes edges styles

/-- **A sound chart reads as one.** -/
theorem Flowchart.Sound.readsAsFlowchart {chart : Flowchart} {held : List Nat} (h : chart.Sound held)
    (kind : DiagramKind) (note : Option String) : (chart.toDiagram kind note).ReadsAsFlowchart := by
  have hnode : ∀ i line, chart.nodeLines[i]? = some line → IsNodeLine (i + 1) line := by
    intro i line hline
    obtain ⟨node, hnode, rfl⟩ := mem_of_numbered hline
    exact ⟨node.label, h.labels node hnode, rfl⟩
  have hedge : ∀ line ∈ chart.edges.map edgeLine, IsEdgeLine chart.nodes.length line := by
    intro line hline
    obtain ⟨e, he, rfl⟩ := List.mem_map.mp hline
    exact ⟨e.source, e.target, (h.edges e he).1, (h.edges e he).2, e.arrow, rfl⟩
  have hstyle : ∀ line ∈ chart.styles.map styleLine, IsStyleLine chart.nodes.length line := by
    intro line hline
    obtain ⟨mark, hmark, rfl⟩ := List.mem_map.mp hline
    exact ⟨mark.1, h.styles mark hmark, mark.2, rfl⟩
  refine ⟨chart.nodeLines, chart.edges.map edgeLine, chart.styles.map styleLine, ?_, ?_, ?_, hnode, hedge,
    h.apart.map edgeLine_injective, hstyle⟩
  · refine splitOn_intercalate_lines (List.cons_ne_nil _ _) ?_
    intro line hline
    simp only [lines, List.cons_append, List.mem_cons, List.mem_append] at hline
    rcases hline with rfl | (hline | hline) | hline
    · have hheader : OneLine "graph " := by simp [OneLine]
      refine hheader.append ?_
      cases chart.direction <;> simp [OneLine, Direction.code]
    · obtain ⟨i, hi⟩ := List.getElem?_of_mem hline
      exact (hnode i line hi).oneLine
    · exact (hedge line hline).oneLine
    · exact (hstyle line hline).oneLine
  · rw [nodeLines, List.length_map, List.length_zipIdx]
    rfl
  · exact List.length_map _

/-! ### Sequence diagrams -/

namespace SequenceChart

/-- The line declares the participant with a number. -/
def IsParticipantLine (number : Nat) (line : String) : Prop :=
  ∃ label, OneLine label ∧ line = "    participant p" ++ toString number ++ " as " ++ label

/-- The line is a message between two of the first `count` participants. -/
def IsMessageLine (count : Nat) (line : String) : Prop :=
  ∃ source target, (1 ≤ source ∧ source ≤ count) ∧ (1 ≤ target ∧ target ≤ count) ∧
    ∃ label, OneLine label ∧
      line = "    p" ++ toString source ++ "->>p" ++ toString target ++ ": " ++ label

theorem IsParticipantLine.oneLine {number : Nat} {line : String} (h : IsParticipantLine number line) :
    OneLine line := by
  obtain ⟨label, hlabel, rfl⟩ := h
  have hindent : OneLine "    participant p" := by simp [OneLine]
  have has : OneLine " as " := by simp [OneLine]
  exact ((hindent.append (oneLine_toString number)).append has).append hlabel

theorem IsMessageLine.oneLine {count : Nat} {line : String} (h : IsMessageLine count line) : OneLine line := by
  obtain ⟨source, target, -, -, label, hlabel, rfl⟩ := h
  have hindent : OneLine "    p" := by simp [OneLine]
  have harrow : OneLine "->>p" := by simp [OneLine]
  have hcolon : OneLine ": " := by simp [OneLine]
  exact ((((hindent.append (oneLine_toString source)).append harrow).append (oneLine_toString target)).append
    hcolon).append hlabel

theorem oneLine_callLabel (node : CallTreeNode) : OneLine (callLabel node) := by
  refine (plain_sanitizeLabel _).oneLine.append ?_
  cases node.callLine with
  | none => simp [OneLine]
  | some line =>
    have hopen : OneLine " (line " := by simp [OneLine]
    have hclose : OneLine ")" := by simp [OneLine]
    exact (hopen.append (oneLine_toString line)).append hclose

/-- The messages of a chart have texts on one line and go between its participants. -/
structure Sound (chart : SequenceChart) : Prop where
  labels : ∀ m ∈ chart.messages, OneLine m.label
  between : ∀ m ∈ chart.messages, (1 ≤ m.source ∧ m.source ≤ chart.participants.length) ∧
    (1 ≤ m.target ∧ m.target ≤ chart.participants.length)

/-- What looking up a participant does: no participant is lost, and no message is touched. -/
theorem participant_spec (chart : SequenceChart) (symbol : SymbolId) :
    (1 ≤ (chart.participant symbol).1 ∧
        (chart.participant symbol).1 ≤ (chart.participant symbol).2.participants.length) ∧
      chart.participants.length ≤ (chart.participant symbol).2.participants.length ∧
      (chart.participant symbol).2.messages = chart.messages := by
  rw [participant]
  cases hfind : chart.participants.findIdx? (· == symbol) with
  | none => simp
  | some i =>
    have hi : i < chart.participants.length := (List.findIdx?_eq_some_iff_findIdx_eq.mp hfind).1
    exact ⟨⟨Nat.le_add_left 1 i, hi⟩, Nat.le_refl _, rfl⟩

theorem Sound.participant {chart : SequenceChart} (h : chart.Sound) (symbol : SymbolId) :
    (chart.participant symbol).2.Sound := by
  obtain ⟨-, hmore, hmessages⟩ := chart.participant_spec symbol
  constructor
  · rw [hmessages]
    exact h.labels
  · rw [hmessages]
    intro m hm
    obtain ⟨⟨hsource, hsource'⟩, htarget, htarget'⟩ := h.between m hm
    exact ⟨⟨hsource, hsource'.trans hmore⟩, htarget, htarget'.trans hmore⟩

theorem Sound.visit {chart : SequenceChart} (h : chart.Sound) (visited : CallTreeNode × Option CallTreeNode) :
    (chart.visit visited).Sound := by
  obtain ⟨node, parent⟩ := visited
  have hnode := h.participant node.symbol
  cases parent with
  | none => exact hnode
  | some parent =>
    obtain ⟨htarget, -⟩ := chart.participant_spec node.symbol
    obtain ⟨hsource, hmore, -⟩ := (chart.participant node.symbol).2.participant_spec parent.symbol
    have hboth := hnode.participant parent.symbol
    constructor
    · intro m hm
      rcases List.mem_append.mp hm with hm | hm
      · exact hboth.labels m hm
      · rw [List.mem_singleton.mp hm]
        exact oneLine_callLabel node
    · intro m hm
      rcases List.mem_append.mp hm with hm | hm
      · exact hboth.between m hm
      · rw [List.mem_singleton.mp hm]
        exact ⟨hsource, htarget.1, htarget.2.trans hmore⟩

theorem sound_sequenceChart (r : CallTreeResult) : r.sequenceChart.Sound := by
  rw [CallTreeResult.sequenceChart]
  refine List.foldlRecOn _ _ ⟨fun m hm => (by cases hm), fun m hm => (by cases hm)⟩ ?_
  intro chart h visited _
  exact h.visit visited

end SequenceChart

/-- The lines of a diagram are those of a sequence diagram: a header, the participants by their numbers from one,
and the messages. -/
structure Diagram.SequenceLines (d : Diagram) (participants messages : List String) : Prop where
  split : d.text.toList.splitOn '\n' = ("sequenceDiagram" :: participants ++ messages).map String.toList
  nodeCount : participants.length = d.nodeCount
  edgeCount : messages.length = d.edgeCount
  participant : ∀ i line, participants[i]? = some line → SequenceChart.IsParticipantLine (i + 1) line
  message : ∀ line ∈ messages, SequenceChart.IsMessageLine d.nodeCount line

/-- The text of a diagram, cut at its line feeds, is that of a sequence diagram. -/
def Diagram.ReadsAsSequence (d : Diagram) : Prop :=
  ∃ participants messages, d.SequenceLines participants messages

theorem SequenceChart.readsAsSequence {labels : List String} {messages : List Message}
    (hlabels : ∀ label ∈ labels, OneLine label) (htexts : ∀ m ∈ messages, OneLine m.label)
    (hbetween : ∀ m ∈ messages, (1 ≤ m.source ∧ m.source ≤ labels.length) ∧
      (1 ≤ m.target ∧ m.target ≤ labels.length)) (note : Option String) :
    (diagramOf labels messages note).ReadsAsSequence := by
  have hparticipant : ∀ i line,
      (labels.zipIdx.map fun entry => participantLine (entry.2 + 1) entry.1)[i]? = some line →
        IsParticipantLine (i + 1) line := by
    intro i line hline
    obtain ⟨label, hlabel, rfl⟩ := mem_of_numbered hline
    exact ⟨label, hlabels label hlabel, rfl⟩
  have hmessage : ∀ line ∈ messages.map messageLine, IsMessageLine labels.length line := by
    intro line hline
    obtain ⟨m, hm, rfl⟩ := List.mem_map.mp hline
    exact ⟨m.source, m.target, (hbetween m hm).1, (hbetween m hm).2, m.label, htexts m hm, rfl⟩
  refine ⟨_, _, ?_, ?_, ?_, hparticipant, hmessage⟩
  · refine splitOn_intercalate_lines (List.cons_ne_nil _ _) ?_
    intro line hline
    simp only [linesOf, List.cons_append, List.mem_cons, List.mem_append] at hline
    rcases hline with rfl | hline | hline
    · simp [OneLine]
    · obtain ⟨i, hi⟩ := List.getElem?_of_mem hline
      exact (hparticipant i line hi).oneLine
    · exact (hmessage line hline).oneLine
  · rw [List.length_map, List.length_zipIdx]
    rfl
  · exact List.length_map _

/-! ### Every diagram -/

theorem readsAsFlowchart_ofNote (kind : DiagramKind) (direction : Direction) (note : String) :
    (Diagram.ofNote kind direction note).ReadsAsFlowchart :=
  ((Flowchart.sound_empty direction).node "note" (plain_sanitizeLabel note)).readsAsFlowchart kind (some note)

theorem sound_callTree_flowchart (r : CallTreeResult) (direction : Direction) :
    (r.flowchart direction).Sound [] := by
  refine Flowchart.Sound.foldl (fun {chart} h tree => ?_) r.trees (Flowchart.sound_empty direction)
  exact ((h.tree tree).style List.mem_cons_self .root).mono fun n hn => List.mem_cons_of_mem _ hn

theorem sound_paths_flowchart (r : PathResult) (direction : Direction) : (r.flowchart direction).Sound [] :=
  Flowchart.Sound.foldl Flowchart.Sound.path r.paths (Flowchart.sound_empty direction)

theorem sound_concept_flowchart (r : ConceptResult) (direction : Direction) :
    ∃ held, (r.flowchart direction).Sound held := by
  have hconcept := (Flowchart.sound_empty direction).node "concept" (plain_sanitizeLabel r.concept)
  have hstyle := hconcept.style List.mem_cons_self .concept
  have hgroups := Flowchart.Sound.foldl (fun h group => h.keywordGroup List.mem_cons_self group)
    (r.groups.filter fun group => !group.hits.isEmpty) hstyle
  exact ⟨_, Flowchart.Sound.foldl
    (fun h tree => (h.tree tree).mono fun n hn => List.mem_cons_of_mem _ hn) r.trees hgroups⟩

theorem sound_files_flowchart (d : FileDependencies) (direction : Direction) :
    (d.flowchart direction).Sound [] := by
  have hfiles := Flowchart.Sound.foldl
    (fun h file => (h.fileNode file).mono fun n hn => List.mem_cons_of_mem _ hn) d.files
    (Flowchart.sound_empty direction)
  refine Flowchart.Sound.foldl (fun {chart} h e => ?_) d.edges hfiles
  have hedge := ((h.fileNode e.source).fileNode e.target).edge (List.mem_cons_of_mem _ List.mem_cons_self)
    List.mem_cons_self .call
  exact hedge.mono fun n hn => List.mem_cons_of_mem _ (List.mem_cons_of_mem _ hn)

theorem IncludeMap.sound_addTarget (includes : IncludeMap) {source : Nat} {held : List Nat} (hsource : source ∈ held)
    {chart : Flowchart} (h : chart.Sound held) (target : String) :
    (includes.addTarget source chart target).Sound held := by
  rw [addTarget]
  cases includes.resolve? target with
  | none =>
    have hedge := (h.node ("include:" ++ target) (plain_sanitizeLabel target)).edge
      (List.mem_cons_of_mem _ hsource) List.mem_cons_self .call
    exact hedge.mono fun n hn => List.mem_cons_of_mem _ hn
  | some key =>
    have hedge := (h.fileNode key).edge (List.mem_cons_of_mem _ hsource) List.mem_cons_self .call
    exact hedge.mono fun n hn => List.mem_cons_of_mem _ hn

theorem IncludeMap.sound_flowchart (includes : IncludeMap) (direction : Direction) :
    (includes.flowchart direction).Sound [] := by
  refine Flowchart.Sound.foldl (fun {chart} h entry => ?_) includes.entries (Flowchart.sound_empty direction)
  have htargets := Flowchart.Sound.foldl (includes.sound_addTarget List.mem_cons_self) entry.2
    (h.fileNode entry.1)
  exact htargets.mono fun n hn => List.mem_cons_of_mem _ hn

theorem readsAsSequence_sequenceDiagram (r : CallTreeResult) : r.sequenceDiagram.ReadsAsSequence := by
  rw [CallTreeResult.sequenceDiagram]
  split
  · refine SequenceChart.readsAsSequence ?_ (fun m hm => by cases hm) (fun m hm => by cases hm) _
    intro label hlabel
    rw [List.mem_singleton.mp hlabel]
    exact (plain_sanitizeLabel _).oneLine
  · have hsound := SequenceChart.sound_sequenceChart r
    refine SequenceChart.readsAsSequence ?_ hsound.labels (by rw [List.length_map]; exact hsound.between) _
    intro label hlabel
    obtain ⟨symbol, -, rfl⟩ := List.mem_map.mp hlabel
    exact (plain_symbolLabel symbol).oneLine

/-- **No string can corrupt a diagram.** Whatever a diagram is drawn from, its text cut at line feeds is one header,
then as many lines of nodes as it counts, numbered from one, then as many lines of edges as it counts, each between
two of these nodes and no two the same, then styles of these nodes. Within the quotes of a node there is no quote,
bracket or line feed. A sequence diagram has participants and messages in their place, and no styles. -/
theorem diagrams_stay_intact (direction : Direction) :
    (∀ r : CallTreeResult, (r.diagram direction).ReadsAsFlowchart) ∧
    (∀ r : PathResult, (r.diagram direction).ReadsAsFlowchart) ∧
    (∀ r : ConceptResult, (r.diagram direction).ReadsAsFlowchart) ∧
    (∀ d : FileDependencies, (d.diagram direction).ReadsAsFlowchart) ∧
    (∀ includes : IncludeMap, (includes.diagram direction).ReadsAsFlowchart) ∧
    ∀ r : CallTreeResult, r.sequenceDiagram.ReadsAsSequence := by
  refine ⟨fun r => ?_, fun r => ?_, fun r => ?_, fun d => ?_, fun includes => ?_, readsAsSequence_sequenceDiagram⟩
  · rw [CallTreeResult.diagram]
    split
    · exact readsAsFlowchart_ofNote _ _ _
    · exact (sound_callTree_flowchart r direction).readsAsFlowchart _ _
  · rw [PathResult.diagram]
    split
    · exact readsAsFlowchart_ofNote _ _ _
    · exact (sound_paths_flowchart r direction).readsAsFlowchart _ _
  · rw [ConceptResult.diagram]
    split
    · exact readsAsFlowchart_ofNote _ _ _
    · obtain ⟨held, hsound⟩ := sound_concept_flowchart r direction
      exact hsound.readsAsFlowchart _ _
  · rw [FileDependencies.diagram]
    split
    · exact readsAsFlowchart_ofNote _ _ _
    · exact (sound_files_flowchart d direction).readsAsFlowchart _ _
  · rw [IncludeMap.diagram]
    split
    · exact readsAsFlowchart_ofNote _ _ _
    · exact (includes.sound_flowchart direction).readsAsFlowchart _ _

end CodeAtlas
