import CodeAtlas.Proofs.BlockEnds
import CodeAtlas.Proofs.HeaderStarts
import CodeAtlas.Proofs.PatternEnds

/-!
# What the rules find

Every match of a rule gives a finding, since the rules cut the code only where it can be cut. This file says so
for each rule, and what the headers are that are found.

* `Header.EndsBraced`, `Header.EndsIndented`: the ways in which a definition ends;
* `Source.Places`: a header lies where its symbol can be cut out of the text;
* `CFamily.exists_findings?`, `Python.exists_findings?`, `Braces.exists_findings?`: the findings of a family.
-/

namespace CodeAtlas

/-- A step that has a result for each element of a list has results for the whole list. -/
theorem exists_mapM {α β : Type} {f : α → Option β} {P : β → Prop} {xs : List α}
    (h : ∀ x ∈ xs, ∃ y, f x = some y ∧ P y) : ∃ ys, xs.mapM f = some ys ∧ ∀ y ∈ ys, P y := by
  induction xs with
  | nil => exact ⟨[], rfl, by simp⟩
  | cons x xs ih =>
    obtain ⟨y, hy, hPy⟩ := h x List.mem_cons_self
    obtain ⟨ys, hys, hPys⟩ := ih fun x' hx' => h x' (List.mem_cons_of_mem x hx')
    refine ⟨y :: ys, by rw [List.mapM_cons, hy, hys]; rfl, ?_⟩
    intro z hz
    rcases List.mem_cons.mp hz with rfl | hz
    · exact hPy
    · exact hPys z hz

theorem exists_mapM_of_exists {α β : Type} {f : α → Option β} {xs : List α}
    (h : ∀ x ∈ xs, ∃ y, f x = some y) : ∃ ys, xs.mapM f = some ys := by
  obtain ⟨ys, hys, -⟩ := exists_mapM (P := fun _ => True) fun x hx => (h x hx).imp fun y hy => ⟨hy, trivial⟩
  exact ⟨ys, hys⟩

/-! ### Matches in a text -/

/-- The match is a way of the pattern through the text. -/
def Pattern.Finds (p : Pattern) (text : Text) (m : Match) : Prop :=
  ∃ l r l' r' : Text, text = l ++ r ∧ m.span = ⟨l.size, l'.size⟩ ∧
    Reads p ⟨l, r, []⟩ ⟨l', r', m.marks⟩

namespace Pattern

theorem finds_of_mem_findAll {p : Pattern} {text : Text} {m : Match} (h : m ∈ p.findAll text) :
    p.Finds text m := by
  obtain ⟨l, r, htext, hmatch⟩ := exists_matchAt?_of_mem_findAll h
  obtain ⟨l', r', hspan, hreads⟩ := reads_of_matchAt? hmatch
  exact ⟨l, r, l', r', htext, hspan, hreads⟩

theorem reads_of_matchStart? {p : Pattern} {text : Text} {m : Match} (h : p.matchStart? text = some m) :
    ∃ l' r' : Text, m.span = ⟨0, l'.size⟩ ∧ Reads p ⟨[], text, []⟩ ⟨l', r', m.marks⟩ :=
  reads_of_matchAt? (l := []) h

namespace Finds

variable {p : Pattern} {text : Text} {m : Match}

theorem isBoundary (h : p.Finds text m) :
    text.IsBoundary m.span.start ∧ text.IsBoundary m.span.stop ∧ m.span.start ≤ m.span.stop := by
  obtain ⟨l, r, l', r', htext, hspan, hreads⟩ := h
  rw [hspan]
  exact ⟨⟨l, r, htext, rfl⟩, ⟨l', r', htext.trans hreads.text_eq, rfl⟩, hreads.size_le⟩

/-- A group is a stretch of the match. -/
theorem group (h : p.Finds text m) (hp : p.grouped = true) {number : Nat} {span : Span}
    (hgroup : m.group? number = some span) :
    text.IsBoundary span.start ∧ text.IsBoundary span.stop ∧ m.span.start ≤ span.start ∧
      span.start ≤ span.stop ∧ span.stop ≤ m.span.stop := by
  obtain ⟨l, r, l', r', htext, hspan, hreads⟩ := h
  obtain ⟨marks, hmarks, hgroups⟩ := hreads.groups hp
  rw [List.append_nil] at hmarks
  dsimp only at hmarks hgroups
  rw [Match.group?, hmarks] at hgroup
  rw [htext, hspan]
  split at hgroup
  · rename_i start stop hstart hstop
    cases hgroup
    exact hgroups.of_lookup hstart hstop
  · cases hgroup

theorem exists_slice? (h : p.Finds text m) (hp : p.grouped = true) {number : Nat} {span : Span}
    (hgroup : m.group? number = some span) : ∃ part, text.slice? span.start span.stop = some part := by
  obtain ⟨hstart, hstop, -, hle, -⟩ := h.group hp hgroup
  exact hstart.exists_slice? hstop hle

theorem lt_of_not_skips (h : p.Finds text m) (hp : p.skips [] = false) : m.span.start < m.span.stop := by
  obtain ⟨l, r, l', r', -, hspan, hreads⟩ := h
  obtain ⟨v, c, hbefore, -⟩ := hreads.exists_last hp
  have hc := c.utf8Size_pos
  dsimp only at hbefore
  rw [hspan, hbefore]
  simp only [Text.size_append, Text.size_cons]
  omega

/-- The last character of the match, if it can only be one. -/
theorem exists_last (h : p.Finds text m) {c : Char} (hp : p.endsOnly c = true) :
    ∃ offset, m.span.stop = offset + c.utf8Size ∧ text.StandsAt c offset ∧ m.span.start ≤ offset := by
  obtain ⟨l, r, l', r', htext, hspan, hreads⟩ := h
  obtain ⟨v, hbefore, hafter⟩ := hreads.endsOnly hp
  dsimp only at hbefore hafter
  rw [hspan, hbefore]
  refine ⟨Text.size (l ++ v), ?_, ⟨l ++ v, r', by rw [htext, hafter, List.append_assoc], rfl⟩, ?_⟩
  · simp only [Text.size_append, Text.size_cons, Text.size_nil]
    omega
  · simp only [Text.size_append]
    omega

end Finds

/-- A group that ends the pattern ends the match. -/
theorem Reads.final_group {a body : Pattern} {number : Nat} {k k' : Place}
    (h : Reads (Pattern.seq a (Pattern.seq (.mark (2 * number)) (Pattern.seq body (.mark (2 * number + 1))))) k k')
    (hbody : body.unmarked = true) :
    ∃ (l r : Text) (m : Marks), Reads a k ⟨l, r, m⟩ ∧ l ++ r = k.before ++ k.after ∧
      k'.marks.lookup (2 * number) = some l.size ∧ k'.marks.lookup (2 * number + 1) = some k'.before.size ∧
      Reads body ⟨l, r, (2 * number, l.size) :: m⟩ ⟨k'.before, k'.after, (2 * number, l.size) :: m⟩ := by
  cases h with
  | @seq _ _ _ k₁ _ ha hgroup =>
    cases hgroup with
    | seq hopen hrest =>
      cases hopen with
      | mark _ l r m =>
        cases hrest with
        | seq hread hclose =>
          cases hclose with
          | mark _ l' r' m' =>
            have hmarks := hread.marks_eq hbody
            dsimp only at hmarks
            subst hmarks
            refine ⟨l, r, m, ha, ha.text_eq.symm, ?_, List.lookup_cons_self, hread⟩
            have hodd : (2 * number == 2 * number + 1) = false := beq_eq_false_iff_ne.mpr (by omega)
            simp [List.lookup_cons, hodd]

end Pattern

/-! ### How a definition ends -/

/-- The character before the offset of the code is neither a space nor a line feed. -/
def Source.SolidBefore (source : Source) (offset : Nat) : Prop :=
  ∃ (u : Text) (c : Char) (v : Text), source.code = u ++ c :: v ∧ offset = Text.size (u ++ [c]) ∧
    c ≠ ' ' ∧ c ≠ '\n'

theorem Source.SolidBefore.isBoundary {source : Source} {offset : Nat} (h : source.SolidBefore offset) :
    source.text.IsBoundary offset := by
  obtain ⟨u, c, v, hcode, rfl, hspace, -⟩ := h
  have hstands := source.code_masks.standsAt ⟨u, v, hcode, rfl⟩ hspace
  rw [Text.size_append, Text.size_cons, Text.size_nil, Nat.add_zero]
  exact hstands.isBoundary_after

/-- The spaces and tabs at the start of the line at `start`, up to a character that is no blank, indent the line
by `indent`. -/
def Source.IndentedBy (source : Source) (start indent : Nat) : Prop :=
  ∃ (l g : Text) (c : Char) (w : Text), source.code = l ++ g ++ c :: w ∧ start = l.size ∧ l.EndsLine ∧
    (∀ d ∈ g, d = ' ' ∨ d = '\t') ∧ Text.isBlank c = false ∧ indent = indentWidth g

/-- The ways in which a definition ends whose blocks stand in braces. -/
inductive Header.EndsBraced (source : Source) (h : Header) : Prop
  /-- With the block that opens at the end of the header. -/
  | block (hopen : source.code.StandsAt '\x7b' h.stop)
      (hline : h.endLine = (source.braceBlockEnd h.stop).line)
  /-- With the header. -/
  | line (hsolid : source.SolidBefore h.stop) (hline : h.endLine = source.lineAt h.stop)
  /-- With the name behind the block. -/
  | named (close : Nat) (left name right : Text) (hclose : closingBrace? source.code h.stop = some close)
      (hcode : source.code = left ++ name ++ right) (hleft : left.size = close + 1)
      (hopener : '\x7b' ∉ name) (hcloser : '\x7d' ∉ name)
      (hsolid : source.SolidBefore (left ++ name).size) (hline : h.endLine = source.lineAt (left ++ name).size)

/-- The definition ends with the last line that is indented deeper than its header. -/
def Header.EndsIndented (source : Source) (h : Header) : Prop :=
  source.code.StandsAt ':' h.stop ∧ ∃ indent, source.IndentedBy h.start indent ∧
    h.endLine = source.indentedBlockEnd (source.lineAt h.stop) indent

/-- A definition ends as the rules of a family have it. -/
inductive Header.Ends (source : Source) (h : Header) : RuleFamily → Prop
  | braced {family : RuleFamily} (hfamily : family ≠ .python) (hends : h.EndsBraced source) : Ends source h family
  | indented (hends : h.EndsIndented source) : Ends source h .python

/-- A header of a family lies where its symbol can be cut out of the text, and its definition ends in one of the
known ways. -/
structure Source.Places (source : Source) (family : RuleFamily) (h : Header) : Prop where
  heads : source.HeadsLine h.start
  boundary : source.text.IsBoundary h.stop
  le : h.start ≤ h.stop
  ends : h.Ends source family

/-- The headers among some findings are well placed. -/
def Source.PlacesAll (source : Source) (family : RuleFamily) (f : Finding) : Prop :=
  ∀ h, f.header = some h → source.Places family h

theorem Source.placesAll_nothing (source : Source) (family : RuleFamily) (unterminated : Bool) :
    source.PlacesAll family ⟨none, unterminated⟩ := by
  intro h hh
  cases hh

theorem Source.headsLine_of_finds {source : Source} {p : Pattern} {m : Match} (h : p.Finds source.code m)
    (hanchored : p.anchored = true) (hled : p.isLed = true) : source.HeadsLine m.span.start := by
  obtain ⟨l, r, l', r', hcode, hspan, hreads⟩ := h
  obtain ⟨g, c, w, -, hafter, hgap, hc⟩ := hreads.led hled
  dsimp only at hafter
  refine ⟨l, g, c, w ++ r', ?_, by rw [hspan], Text.endsLine_of_startsLine (hreads.startsLine hanchored),
    hgap, hc⟩
  rw [hcode, hafter]
  simp

theorem Source.solidBefore_of_finds {source : Source} {p : Pattern} {m : Match} (h : p.Finds source.code m)
    (hp : p.endsSolid = true) : source.SolidBefore m.span.stop := by
  obtain ⟨l, r, l', r', hcode, hspan, hreads⟩ := h
  obtain ⟨v, c, hbefore, hafter, hspace, hnewline⟩ := hreads.endsSolid hp
  dsimp only at hbefore hafter
  refine ⟨l ++ v, c, r', by rw [hcode, hafter, List.append_assoc], ?_, hspace, hnewline⟩
  rw [hspan, hbefore, List.append_assoc]

/-- A header that ends at a brace of the code is well placed if its block is taken for its definition. -/
theorem Source.places_block {source : Source} {family : RuleFamily} {name : Text} {kind : SymbolKind}
    {start opened : Nat} (hfamily : family ≠ .python)
    (hheads : source.HeadsLine start) (hopened : source.code.StandsAt '\x7b' opened) (hle : start ≤ opened) :
    source.PlacesAll family ⟨some ⟨name, kind, start, opened, (source.braceBlockEnd opened).line⟩,
      (source.braceBlockEnd opened).unterminated⟩ := by
  intro h hh
  cases hh
  exact ⟨hheads, (source.code_masks.standsAt hopened (by decide)).isBoundary, hle,
    .braced hfamily (.block hopened rfl)⟩

theorem Pattern.exists_trimmedGroups {p : Pattern} (hp : p.grouped = true) (number : Nat) (text : Text) :
    ∃ parts, p.trimmedGroups number text = some parts := by
  apply exists_mapM_of_exists
  intro span hspan
  obtain ⟨m, hm, hgroup⟩ := List.mem_filterMap.mp hspan
  obtain ⟨part, hpart⟩ := (Pattern.finds_of_mem_findAll hm).exists_slice? hp hgroup
  exact ⟨part.trim, by rw [hpart]; rfl⟩

/-! ### Definitions with a type in front -/

namespace CFamily

open Pattern

theorem exists_functionAt? {source : Source} {m : Match} (hm : m ∈ functionHeader.findAll source.code) :
    ∃ f, functionAt? source m = some f ∧ source.PlacesAll .cFamily f := by
  have hfinds := finds_of_mem_findAll hm
  have hheads := source.headsLine_of_finds hfinds (by decide) (by decide)
  have hlt := hfinds.lt_of_not_skips (by decide)
  have hnothing : ∃ f, some Finding.nothing = some f ∧ source.PlacesAll .cFamily f :=
    ⟨_, rfl, source.placesAll_nothing .cFamily false⟩
  unfold functionAt?
  cases hgroup : m.group? 1 with
  | none => exact hnothing
  | some group =>
    obtain ⟨hstart, hstop, hle, -, -⟩ := hfinds.group (by decide) hgroup
    obtain ⟨qualified, hqualified⟩ := hfinds.exists_slice? (by decide) hgroup
    simp only [hqualified, Option.bind_eq_bind, Option.bind_some]
    split_ifs
    · exact hnothing
    · obtain ⟨openParen, hparen⟩ : ∃ n, m.span.stop = n + 1 := ⟨m.span.stop - 1, by omega⟩
      rw [hparen, Text.before?, Option.bind_some]
      cases hclose : closingParen? source.code openParen with
      | none => exact hnothing
      | some closeParen =>
        obtain ⟨-, hcloser, hbefore⟩ := standsAt_of_closing? (by decide) hclose
        obtain ⟨left, rest, hcode, hleft, hrest⟩ := hcloser.isBoundary_after.exists_sliceFrom?
        rw [show ')'.utf8Size = 1 from rfl] at hleft hrest
        simp only [hrest, Option.bind_some]
        cases htail : functionTail.matchStart? rest with
        | none => exact hnothing
        | some tail =>
          obtain ⟨before, hbefore'⟩ := hfinds.isBoundary.1.exists_slice? hstart hle
          simp only [hbefore', Option.bind_some]
          split_ifs
          · exact hnothing
          · refine ⟨_, rfl, source.places_block (by decide) hheads ?_ (by omega)⟩
            obtain ⟨l', r', hspan, hreads⟩ := reads_of_matchStart? htail
            obtain ⟨v, hbefore, hafter⟩ := hreads.endsOnly (c := '\x7b') (by decide)
            dsimp only [List.nil_append] at hbefore hafter
            refine ⟨left ++ v, r', by rw [hcode, hafter, List.append_assoc], ?_⟩
            have hbrace : '\x7b'.utf8Size = 1 := rfl
            simp only [hspan, hbefore, Text.size_append, Text.size_cons, Text.size_nil, ← hleft, hbrace]
            omega

theorem exists_recordAt? {source : Source} {m : Match} (hm : m ∈ recordHeader.findAll source.code) :
    ∃ f, recordAt? source m = some f ∧ source.PlacesAll .cFamily f := by
  have hfinds := finds_of_mem_findAll hm
  have hheads := source.headsLine_of_finds hfinds (by decide) (by decide)
  obtain ⟨openBrace, hstop, hopened, hle⟩ := hfinds.exists_last (c := '\x7b') (by decide)
  unfold recordAt?
  cases hgroup : m.group? 1 with
  | none => exact ⟨_, rfl, source.placesAll_nothing .cFamily false⟩
  | some group =>
    obtain ⟨name, hname⟩ := hfinds.exists_slice? (by decide) hgroup
    have hbefore : Text.before? m.span.stop = some openBrace := by rw [hstop]; rfl
    simp only [hname, hbefore, Option.bind_eq_bind, Option.bind_some]
    exact ⟨_, rfl, source.places_block (by decide) hheads hopened hle⟩

/-- The name that a typedef gives to its record lies behind the block, and no brace lies between. -/
theorem exists_typedefName {rest : Text} {named : Match} {group : Span}
    (h : typedefName.matchStart? rest = some named) (hgroup : named.group? 1 = some group) :
    ∃ (u : Text) (c : Char) (v : Text), rest = u ++ c :: v ∧ group.stop = Text.size (u ++ [c]) ∧
      '\x7b' ∉ u ++ [c] ∧ '\x7d' ∉ u ++ [c] ∧ c ≠ ' ' ∧ c ≠ '\n' := by
  obtain ⟨l', r', -, hreads⟩ := reads_of_matchStart? h
  obtain ⟨u, c, hbefore, hafter, hspace, hnewline⟩ := hreads.endsSolid (by decide)
  obtain ⟨w, hw, -, hopener⟩ := hreads.avoids (c := '\x7b') (by decide)
  obtain ⟨w', hw', -, hcloser⟩ := hreads.avoids (c := '\x7d') (by decide)
  dsimp only [List.nil_append] at hbefore hafter hw hw'
  refine ⟨u, c, r', hafter, ?_, by rwa [← hbefore, hw], by rwa [← hbefore, hw'], hspace, hnewline⟩
  -- the name is the last part of the pattern
  have hlast : ∃ a body, typedefName = .seq a (.seq (.mark (2 * 1)) (.seq body (.mark (2 * 1 + 1)))) ∧
      body.unmarked = true := ⟨_, _, rfl, by decide⟩
  obtain ⟨a, body, hpattern, hbody⟩ := hlast
  rw [hpattern] at hreads
  obtain ⟨l, r, m, -, -, hstart, hstop, -⟩ := hreads.final_group hbody
  dsimp only at hstart hstop
  rw [Match.group?, hstart, hstop] at hgroup
  cases hgroup
  rw [hbefore]

theorem exists_typedefAt? {source : Source} {m : Match} (hm : m ∈ anonymousTypedef.findAll source.code) :
    ∃ f, typedefAt? source m = some f ∧ source.PlacesAll .cFamily f := by
  have hfinds := finds_of_mem_findAll hm
  have hheads := source.headsLine_of_finds hfinds (by decide) (by decide)
  obtain ⟨openBrace, hstop, hopened, hle⟩ := hfinds.exists_last (c := '\x7b') (by decide)
  have hbefore : Text.before? m.span.stop = some openBrace := by rw [hstop]; rfl
  unfold typedefAt?
  simp only [hbefore, Option.bind_eq_bind, Option.bind_some]
  cases hclose : closingBrace? source.code openBrace with
  | none => exact ⟨_, rfl, source.placesAll_nothing .cFamily true⟩
  | some close =>
    obtain ⟨-, hcloser, -⟩ := standsAt_of_closing? (by decide) hclose
    obtain ⟨left, rest, hcode, hleft, hrest⟩ := hcloser.isBoundary_after.exists_sliceFrom?
    rw [show '\x7d'.utf8Size = 1 from rfl] at hleft hrest
    simp only [hrest, Option.bind_some]
    cases hnamed : typedefName.matchStart? rest with
    | none => exact ⟨_, rfl, source.placesAll_nothing .cFamily false⟩
    | some named =>
      cases hgroup : named.group? 1 with
      | none =>
        simp only [hgroup]
        exact ⟨_, rfl, source.placesAll_nothing .cFamily false⟩
      | some group =>
        obtain ⟨l', r', hspan, hreads⟩ := reads_of_matchStart? hnamed
        have hfinds' : typedefName.Finds rest named := ⟨[], rest, l', r', rfl, hspan, hreads⟩
        obtain ⟨name, hname⟩ := hfinds'.exists_slice? (by decide) hgroup
        obtain ⟨u, c, v, hsplit, hgroupStop, hopener, hcloser', hspace, hnewline⟩ :=
          exists_typedefName hnamed hgroup
        simp only [hgroup, hname, Option.bind_some]
        refine ⟨_, rfl, ?_⟩
        intro h hh
        cases hh
        have hend : close + 1 + group.stop = Text.size (left ++ (u ++ [c])) := by
          rw [hgroupStop, hleft, Text.size_append left]
        refine ⟨hheads, (source.code_masks.standsAt hopened (by decide)).isBoundary, hle, ?_⟩
        refine .braced (by decide) (.named close left (u ++ [c]) v hclose ?_ hleft.symm hopener hcloser'
          ⟨left ++ u, c, v, ?_, by simp, hspace, hnewline⟩ (by rw [hend]))
        · rw [hcode, hsplit]
          simp
        · rw [hcode, hsplit]
          simp

theorem exists_findings? (source : Source) :
    ∃ findings, findings? source = some findings ∧ ∀ f ∈ findings, source.PlacesAll .cFamily f := by
  obtain ⟨functions, hfunctions, hplaced⟩ :=
    exists_mapM fun m (hm : m ∈ functionHeader.findAll source.code) => exists_functionAt? hm
  obtain ⟨records, hrecords, hplaced'⟩ :=
    exists_mapM fun m (hm : m ∈ recordHeader.findAll source.code) => exists_recordAt? hm
  obtain ⟨typedefs, htypedefs, hplaced''⟩ :=
    exists_mapM fun m (hm : m ∈ anonymousTypedef.findAll source.code) => exists_typedefAt? hm
  refine ⟨functions ++ records ++ typedefs, ?_, ?_⟩
  · rw [findings?, hfunctions, hrecords, htypedefs]
    rfl
  · intro f hf
    rcases List.mem_append.mp hf with hf | hf
    · rcases List.mem_append.mp hf with hf | hf
      · exact hplaced f hf
      · exact hplaced' f hf
    · exact hplaced'' f hf

theorem exists_includes? (source : Source) : ∃ includes, includes? source = some includes :=
  exists_trimmedGroups (by decide) 1 source.text

end CFamily

/-! ### Definitions with an indented block -/

namespace Python

open Pattern

/-- Whether a pattern reads the indentation of a line as group 2, and then a character that belongs to it no
more. -/
def OpensIndented (p : Pattern) : Prop :=
  ∃ (position : Nat) (rest : Pattern),
    p.andThen .empty = .seq .lineStart
      (.seq (.seq (.mark 4) (.seq (.many true (.char position (.oneOf " \t"))) (.mark 5))) rest) ∧
    4 ∉ rest.slots ∧ 5 ∉ rest.slots ∧ rest.startsSolid = true

theorem opensIndented_functionHeader : OpensIndented functionHeader := ⟨_, _, rfl, by decide⟩

theorem opensIndented_classHeader : OpensIndented classHeader := ⟨_, _, rfl, by decide⟩

/-- A greedy gap reads spaces and tabs. -/
theorem gap_of_reads {position : Nat} {p : Pattern} {k k' : Place}
    (h : Reads p k k') (hp : p = .many true (.char position (.oneOf " \t"))) :
    ∃ g, k'.before = k.before ++ g ∧ k.after = g ++ k'.after ∧ k'.marks = k.marks ∧
      ∀ d ∈ g, d = ' ' ∨ d = '\t' := by
  induction h with
  | stop greedy body k => exact ⟨[], by simp⟩
  | @round greedy body k k' k'' hfirst _ _ ih =>
    cases hp
    obtain ⟨g, hg, hg', hmarks, hgap⟩ := ih rfl
    cases hfirst with
    | @char _ _ c hc l r m =>
      refine ⟨c :: g, by simpa using hg, by simpa using hg', hmarks, ?_⟩
      intro d hd
      rcases List.mem_cons.mp hd with rfl | hd
      · simpa [CharClass.contains, CharClass.oneOf, CharClass.Item.contains] using hc
      · exact hgap d hd
  | _ => cases hp

/-- The second group of a header is the indentation of its line. -/
theorem indentedBy_of_finds {source : Source} {p : Pattern} {m : Match} (h : p.Finds source.code m)
    (hp : OpensIndented p) {span : Span} (hgroup : m.group? 2 = some span) {indent : Text}
    (hindent : source.code.slice? span.start span.stop = some indent) :
    source.IndentedBy m.span.start (indentWidth indent) := by
  obtain ⟨position, rest, hparts, hstart, hstop, hsolid⟩ := hp
  obtain ⟨l, r, l', r', hcode, hspan, hreads⟩ := h
  have hparts' := Reads.andThen (.seq hreads (.empty _))
  rw [hparts] at hparts'
  cases hparts' with
  | seq hline hbehind =>
    cases hline with
    | lineStart hline =>
      cases hbehind with
      | seq hindentation hrest =>
        cases hindentation with
        | seq hopen hbody =>
          cases hopen with
          | mark =>
            cases hbody with
            | seq hgap hclose =>
              cases hclose with
              | mark _ l₁ r₁ m₁ =>
                obtain ⟨g, hbefore, hafter, hmarks, hgapChars⟩ := gap_of_reads hgap rfl
                obtain ⟨c, w, hafter', hc⟩ := hrest.startsSolid hsolid
                dsimp only at hbefore hafter hmarks hafter'
                subst hbefore
                subst hmarks
                have hcode' : source.code = l ++ g ++ r₁ := by rw [hcode, hafter, List.append_assoc]
                -- the group is what the gap has read
                have hfour : m.marks.lookup 4 = some l.size := hrest.lookup_eq hstart
                have hfive : m.marks.lookup 5 = some (l ++ g).size := hrest.lookup_eq hstop
                rw [Match.group?, show 2 * 2 + 1 = 5 from rfl, show 2 * 2 = 4 from rfl, hfour, hfive] at hgroup
                cases hgroup
                rw [hcode', Text.slice?_size] at hindent
                cases hindent
                refine ⟨l, indent, c, w ++ r', ?_, by rw [hspan], Text.endsLine_of_startsLine hline, hgapChars,
                  hc, rfl⟩
                rw [hcode', hafter']
                simp

theorem exists_blockAt? {source : Source} {p : Pattern} {m : Match} (kind : SymbolKind)
    (hm : m ∈ p.findAll source.code) (hanchored : p.anchored = true) (hled : p.isLed = true)
    (hgrouped : p.grouped = true) (hindented : OpensIndented p) (hskips : p.skips [] = false) :
    ∃ f, blockAt? source kind m = some f ∧ source.PlacesAll .python f := by
  have hfinds := finds_of_mem_findAll hm
  have hheads := source.headsLine_of_finds hfinds hanchored hled
  have hlt := hfinds.lt_of_not_skips hskips
  unfold blockAt?
  cases hgroup : m.group? 1 with
  | none => exact ⟨_, rfl, source.placesAll_nothing .python false⟩
  | some group =>
    cases hgroup' : m.group? 2 with
    | none => exact ⟨_, rfl, source.placesAll_nothing .python false⟩
    | some indentGroup =>
      obtain ⟨last, hlast⟩ : ∃ n, m.span.stop = n + 1 := ⟨m.span.stop - 1, by omega⟩
      obtain ⟨colon, hcolon, hstands⟩ := exists_headerColon? source.code last
      obtain ⟨name, hname⟩ := hfinds.exists_slice? hgrouped hgroup
      obtain ⟨indent, hindent⟩ := hfinds.exists_slice? hgrouped hgroup'
      simp only [hlast, Text.before?, hcolon, Option.bind_eq_bind, Option.bind_some]
      cases colon with
      | none => exact ⟨_, rfl, source.placesAll_nothing .python true⟩
      | some colon =>
        simp only [hname, hindent, Option.bind_some]
        refine ⟨_, rfl, ?_⟩
        intro h hh
        cases hh
        obtain ⟨hat, hle⟩ := hstands colon rfl
        exact ⟨hheads, (source.code_masks.standsAt hat (by decide)).isBoundary,
          by show m.span.start ≤ colon; omega,
          .indented ⟨hat, _, indentedBy_of_finds hfinds hindented hgroup' hindent, rfl⟩⟩

theorem exists_findings? (source : Source) :
    ∃ findings, findings? source = some findings ∧ ∀ f ∈ findings, source.PlacesAll .python f := by
  obtain ⟨functions, hfunctions, hplaced⟩ :=
    exists_mapM fun m (hm : m ∈ functionHeader.findAll source.code) =>
      exists_blockAt? .function hm (by decide) (by decide) (by decide) opensIndented_functionHeader
        (by decide)
  obtain ⟨classes, hclasses, hplaced'⟩ :=
    exists_mapM fun m (hm : m ∈ classHeader.findAll source.code) =>
      exists_blockAt? .structOrClass hm (by decide) (by decide) (by decide)
        opensIndented_classHeader (by decide)
  refine ⟨functions ++ classes, ?_, ?_⟩
  · rw [findings?, hfunctions, hclasses]
    rfl
  · intro f hf
    rcases List.mem_append.mp hf with hf | hf
    · exact hplaced f hf
    · exact hplaced' f hf

/-- The statement of an import line lies between two boundaries of the text: it starts with a character that is
no space, and ends before a line feed, before a comment sign or with the code. -/
theorem exists_importStatement {source : Source} {m : Match} {span : Span}
    (hm : m ∈ importLine.findAll source.code) (hgroup : m.group? 1 = some span) :
    source.text.IsBoundary span.start ∧ source.text.IsBoundary span.stop ∧ span.start ≤ span.stop := by
  obtain ⟨-, -, -, hle, -⟩ := (finds_of_mem_findAll hm).group (by decide) hgroup
  obtain ⟨l, r, hcode, hmatch⟩ := exists_matchAt?_of_mem_findAll hm
  have hloop : importLine.finishesLoop 20 (.noneOf "\n#") = true := by decide
  have hstops := stopsLoop_of_matchAt? hloop hmatch
  obtain ⟨l', r', hspan, hreads⟩ := reads_of_matchAt? hmatch
  obtain ⟨a, body, hpattern, hbody, hsolid⟩ : ∃ a body,
      importLine = .seq a (.seq (.mark (2 * 1)) (.seq body (.mark (2 * 1 + 1)))) ∧
        body.unmarked = true ∧ body.startsSolid = true := ⟨_, _, rfl, by decide⟩
  have htext := hreads.text_eq
  rw [hpattern] at hreads
  obtain ⟨l₁, r₁, m₁, -, hsplit, hstart, hstop, hread⟩ := hreads.final_group hbody
  obtain ⟨c, w, hafter, hc⟩ := hread.startsSolid hsolid
  dsimp only at htext hsplit hstart hstop hafter
  rw [Match.group?, hstart, hstop] at hgroup
  cases hgroup
  refine ⟨?_, ?_, hle⟩
  · apply (source.code_masks.standsAt (c := c) ⟨l₁, w ++ r', ?_, rfl⟩ ?_).isBoundary
    · rw [hcode, ← hsplit, hafter, List.cons_append]
    · intro hspace
      rw [hspace] at hc
      cases hc
  · cases r' with
    | nil =>
      -- the statement ends with the code
      have hend : Text.size l' = source.text.size := by
        rw [← source.size_code, hcode, htext, List.append_nil]
      rw [hend]
      exact Text.isBoundary_end source.text
    | cons d r' =>
      have hd := hstops d ⟨l', r', htext, by rw [hspan]⟩
      apply (source.code_masks.standsAt (c := d) ⟨l', r', hcode.trans htext, rfl⟩ ?_).isBoundary
      intro hspace
      rw [hspace] at hd
      cases hd

theorem exists_includes? (source : Source) : ∃ includes, includes? source = some includes := by
  apply exists_mapM_of_exists
  intro span hspan
  obtain ⟨m, hm, hgroup⟩ := List.mem_filterMap.mp hspan
  obtain ⟨hstart, hstop, hle⟩ := exists_importStatement hm hgroup
  obtain ⟨part, hpart⟩ := hstart.exists_slice? hstop hle
  exact ⟨part.trim, by rw [hpart]; rfl⟩

end Python

/-! ### Definitions with a keyword or modifiers -/

namespace Braces

open Pattern

/-- What holds of the header of every rule. -/
theorem rules_headers : ∀ rule ∈ rules,
    rule.header.anchored = true ∧ rule.header.isLed = true ∧ rule.header.grouped = true ∧
      rule.header.skips [] = false ∧ (rule.body = .block ∨ rule.header.endsSolid = true) := by
  decide

theorem exists_definitionAt? {source : Source} {rule : Rule} {m : Match} (hrule : rule ∈ rules)
    (hm : m ∈ rule.header.findAll source.code) :
    ∃ f, definitionAt? source rule m = some f ∧ source.PlacesAll .generic f := by
  obtain ⟨hanchored, hled, hgrouped, hskips, hend⟩ := rules_headers rule hrule
  have hfinds := finds_of_mem_findAll hm
  have hheads := source.headsLine_of_finds hfinds hanchored hled
  have hlt := hfinds.lt_of_not_skips hskips
  have hnothing : ∃ f, some Finding.nothing = some f ∧ source.PlacesAll .generic f :=
    ⟨_, rfl, source.placesAll_nothing .generic false⟩
  unfold definitionAt?
  cases hgroup : m.group? 1 with
  | none => exact hnothing
  | some group =>
    obtain ⟨name, hname⟩ := hfinds.exists_slice? hgrouped hgroup
    obtain ⟨words, hwords⟩ := exists_mapM_of_exists fun span (hspan : span ∈ (m.group? 2).toList) =>
      hfinds.exists_slice? hgrouped (Option.mem_toList.mp hspan)
    obtain ⟨last, hlast⟩ : ∃ n, m.span.stop = n + 1 := ⟨m.span.stop - 1, by omega⟩
    have hsize := hfinds.isBoundary.2.1.le
    have hopen : source.code.standsAt? '(' last = some (source.code.charAt? last == some '(') := by
      rw [Text.standsAt?, if_pos (by omega)]
    have hbefore : Text.before? m.span.stop = some last := by rw [hlast]; rfl
    simp only [hname, hwords, Option.bind_eq_bind, Option.bind_some]
    by_cases hrefused : (rule.ambiguous && (name :: words).any isRefused) = true
    · rw [if_pos hrefused]
      exact hnothing
    · rw [if_neg hrefused]
      simp only [hbefore, hopen, Option.bind_some]
      generalize hstart : (if (source.code.charAt? last == some '(') = true then last else m.span.stop) = start
      have hle : m.span.start ≤ start := by split_ifs at hstart <;> omega
      split
      · rename_i opened hopened
        have hstands : source.code.StandsAt '\x7b' opened ∧ start ≤ opened := by
          cases hbody : rule.body with
          | arrow => exact standsAt_of_arrowBodyOpen? (by rwa [hbody] at hopened)
          | block => exact standsAt_of_bodyOpen? (by rwa [hbody] at hopened)
          | blockOrLine => exact standsAt_of_bodyOpen? (by rwa [hbody] at hopened)
        exact ⟨_, rfl, source.places_block (by decide) hheads hstands.1 (by omega)⟩
      · split_ifs with hblock
        · exact hnothing
        · -- without a block the definition ends with its header
          have hsolid := source.solidBefore_of_finds hfinds (hend.resolve_left hblock)
          refine ⟨_, rfl, ?_⟩
          intro h hh
          cases hh
          exact ⟨hheads, hsolid.isBoundary, Nat.le_of_lt hlt, .braced (by decide) (.line hsolid rfl)⟩

theorem exists_findings? (source : Source) :
    ∃ findings, findings? source = some findings ∧ ∀ f ∈ findings, source.PlacesAll .generic f := by
  obtain ⟨found, hfound, hplaced⟩ :=
    exists_mapM (P := fun fs => ∀ f ∈ fs, source.PlacesAll .generic f) fun rule (hrule : rule ∈ rules) =>
      exists_mapM fun m (hm : m ∈ rule.header.findAll source.code) => exists_definitionAt? hrule hm
  refine ⟨found.flatten, by rw [findings?, hfound]; rfl, ?_⟩
  intro f hf
  obtain ⟨fs, hfs, hf⟩ := List.mem_flatten.mp hf
  exact hplaced fs hfs f hf

theorem exists_includes? (source : Source) : ∃ includes, includes? source = some includes := by
  have hgrouped : ∀ p ∈ importLines, p.grouped = true := by decide
  obtain ⟨targets, htargets⟩ := exists_mapM_of_exists fun p (hp : p ∈ importLines) =>
    exists_trimmedGroups (hgrouped p hp) 1 source.text
  exact ⟨_, by rw [includes?, htargets]; rfl⟩

end Braces

/-! ### All families -/

namespace Extraction

/-- The rules of a family find only headers that are well placed. -/
theorem exists_findings? (family : RuleFamily) (source : Source) :
    ∃ findings, findings? family source = some findings ∧ ∀ f ∈ findings, source.PlacesAll family f := by
  cases family with
  | cFamily => exact CFamily.exists_findings? source
  | python => exact Python.exists_findings? source
  | generic => exact Braces.exists_findings? source

theorem exists_includes? (family : RuleFamily) (source : Source) :
    ∃ includes, includes? family source = some includes := by
  cases family with
  | cFamily => exact CFamily.exists_includes? source
  | python => exact Python.exists_includes? source
  | generic => exact Braces.exists_includes? source

end Extraction

end CodeAtlas
