import CodeAtlas.Proofs.SymbolRanges

/-!
# Which findings leave a symbol

An extraction takes the symbols of its findings one after another, and drops those whose name and first line it has
already seen. So a finding leaves a symbol exactly if it has a header and is the first at its place. This file ties the
symbols of an extraction to the findings that they belong to, one by one.

* `Header.place`: the name of a definition and the line on which it starts;
* `Finding.kept`, `Finding.displaced`: the findings that leave a symbol, and those that come too late;
* `Finding.exists_kept_of_place`: at each place, the first finding is kept;
* `Extraction.exists_kept`: the symbols of an extraction are those of the kept findings.
-/

namespace CodeAtlas

/-! ### Elements and those before them -/

/-- The elements of a list that satisfy a condition together with the elements before them, if those of `before` come
before the whole list. -/
def filterAfter {α : Type} (p : List α → α → Bool) (before : List α) : List α → List α
  | [] => []
  | a :: rest =>
    if p before a then a :: filterAfter p (before ++ [a]) rest else filterAfter p (before ++ [a]) rest

section FilterAfter

variable {α : Type} {p : List α → α → Bool}

theorem mem_filterAfter {a : α} (list : List α) :
    ∀ {before : List α}, a ∈ filterAfter p before list ↔
      ∃ left right, list = left ++ a :: right ∧ p (before ++ left) a = true := by
  induction list with
  | nil =>
    intro before
    simp [filterAfter]
  | cons b rest ih =>
    intro before
    have hhere : a ∈ filterAfter p before (b :: rest) ↔
        (a = b ∧ p before b = true) ∨ a ∈ filterAfter p (before ++ [b]) rest := by
      rw [filterAfter]
      split_ifs with hb
      · rw [List.mem_cons]
        simp [hb]
      · simp [hb]
    rw [hhere, ih]
    constructor
    · rintro (⟨rfl, hp⟩ | ⟨left, right, rfl, hp⟩)
      · exact ⟨[], rest, rfl, by rwa [List.append_nil]⟩
      · exact ⟨b :: left, right, rfl, by rwa [List.append_assoc] at hp⟩
    · rintro ⟨left, right, hsplit, hp⟩
      cases left with
      | nil =>
        obtain ⟨rfl, rfl⟩ := List.cons.inj hsplit
        exact .inl ⟨rfl, by rwa [List.append_nil] at hp⟩
      | cons c left =>
        obtain ⟨rfl, rfl⟩ := List.cons.inj hsplit
        exact .inr ⟨left, right, rfl, by rwa [List.append_assoc]⟩

theorem filterAfter_subset (before list : List α) : filterAfter p before list ⊆ list := by
  intro a ha
  obtain ⟨left, right, rfl, -⟩ := (mem_filterAfter list).mp ha
  simp

end FilterAfter

/-! ### The first finding at a place -/

/-- The name of a definition and the line on which it starts. -/
def Header.place (source : Source) (h : Header) : Text × Nat :=
  (h.name, source.lineAt h.start)

namespace Finding

/-- The place of a finding, if it has a header. -/
def place? (source : Source) (f : Finding) : Option (Text × Nat) :=
  f.header.map (Header.place source)

/-- Whether one of the findings before it has the place of a finding. -/
def isTaken (source : Source) (before : List Finding) (f : Finding) : Bool :=
  f.header.isSome && (before.map (place? source)).contains (f.place? source)

/-- The findings that leave a symbol: those with a header whose place none before them has. -/
def kept (source : Source) (findings : List Finding) : List Finding :=
  filterAfter (fun before f => f.header.isSome && !isTaken source before f) [] findings

/-- The findings that come too late: one before them has their place. -/
def displaced (source : Source) (findings : List Finding) : List Finding :=
  filterAfter (isTaken source) [] findings

theorem isTaken_iff {source : Source} {before : List Finding} {f : Finding} {h : Header} (hh : f.header = some h) :
    isTaken source before f = true ↔ ∃ g ∈ before, g.place? source = some (h.place source) := by
  simp [isTaken, place?, hh, eq_comm]

/-- **Each finding is kept, comes too late or has no header**, so their numbers add up. -/
theorem countP_eq (source : Source) (p : Finding → Bool) (findings : List Finding) :
    findings.countP p
      = (kept source findings).countP p + (displaced source findings).countP p
        + findings.countP fun f => p f && f.header.isNone := by
  have hrun : ∀ before : List Finding, findings.countP p
      = (filterAfter (fun before f => f.header.isSome && !isTaken source before f) before findings).countP p
        + (filterAfter (isTaken source) before findings).countP p
        + findings.countP fun f => p f && f.header.isNone := by
    induction findings with
    | nil => intro before; rfl
    | cons f rest ih =>
      intro before
      have ih := ih (before ++ [f])
      rw [filterAfter, filterAfter, List.countP_cons, List.countP_cons]
      cases hh : f.header with
      | none =>
        have htaken : isTaken source before f = false := by simp [isTaken, hh]
        simp only [htaken, Option.isSome_none, Bool.false_and, Bool.false_eq_true, if_false, Option.isNone_none,
          Bool.and_true]
        omega
      | some h =>
        cases htaken : isTaken source before f with
        | true =>
          simp only [Option.isSome_some, Bool.not_true, Bool.and_false, Bool.false_eq_true, if_false, if_true,
            Option.isNone_some, List.countP_cons]
          omega
        | false =>
          simp only [Option.isSome_some, Bool.not_false, Bool.and_true, Bool.false_eq_true, if_false, if_true,
            Option.isNone_some, Bool.and_false, List.countP_cons]
          omega
  exact hrun []

/-- At the place of every finding, the first one is kept. -/
theorem exists_kept_of_place {source : Source} {findings : List Finding} {place : Text × Nat}
    (h : ∃ f ∈ findings, f.place? source = some place) :
    ∃ left g right, findings = left ++ g :: right ∧ g ∈ kept source findings ∧ g.place? source = some place ∧
      ∀ f ∈ left, f.place? source ≠ some place := by
  have hfirst : ∃ left g right, findings = left ++ g :: right ∧ g.place? source = some place ∧
      ∀ f ∈ left, f.place? source ≠ some place := by
    obtain ⟨f, hf, hplace⟩ := h
    have hsome : (findings.find? fun f => f.place? source == some place).isSome = true := by
      rw [List.find?_isSome]
      exact ⟨f, hf, by rw [hplace]; exact beq_self_eq_true _⟩
    obtain ⟨g, hg⟩ := Option.isSome_iff_exists.mp hsome
    obtain ⟨hplace', left, right, hsplit, hleft⟩ := List.find?_eq_some_iff_append.mp hg
    refine ⟨left, g, right, hsplit, beq_iff_eq.mp hplace', fun f hf heq => ?_⟩
    have hne := hleft f hf
    simp [heq] at hne
  obtain ⟨left, g, right, hsplit, hplace, hleft⟩ := hfirst
  refine ⟨left, g, right, hsplit, ?_, hplace, hleft⟩
  obtain ⟨h, hh, hplace'⟩ := Option.map_eq_some_iff.mp hplace
  refine (mem_filterAfter findings).mpr ⟨left, right, hsplit, ?_⟩
  rw [List.nil_append, hh, Option.isSome_some, Bool.true_and, Bool.not_eq_true', Bool.eq_false_iff]
  intro htaken
  obtain ⟨f, hf, heq⟩ := (isTaken_iff hh).mp htaken
  exact hleft f hf (by rw [heq, hplace'])

/-- Of findings that follow others, the place is theirs unless it is that of one of the others. -/
theorem exists_kept_append {source : Source} (first : List Finding) {second : List Finding} {place : Text × Nat}
    (h : ∃ f ∈ second, f.place? source = some place) :
    ∃ g ∈ kept source (first ++ second), g.place? source = some place ∧
      (g ∈ first ∨ g ∈ second ∧ ∀ f ∈ first, f.place? source ≠ some place) := by
  obtain ⟨f, hf, hplace⟩ := h
  obtain ⟨left, g, right, hsplit, hg, hplace', hleft⟩ :=
    exists_kept_of_place ⟨f, List.mem_append_right first hf, hplace⟩
  refine ⟨g, hg, hplace', ?_⟩
  rcases List.append_eq_append_iff.mp hsplit with ⟨e, rfl, hsecond⟩ | ⟨e, rfl, hright⟩
  · refine .inr ⟨?_, fun f hf => hleft f (List.mem_append_left e hf)⟩
    rw [hsecond]
    simp
  · cases e with
    | nil =>
      rw [List.append_nil]
      exact .inr ⟨by rw [← List.nil_append second, ← hright]; simp, hleft⟩
    | cons g' e =>
      cases hright
      exact .inl (by simp)

end Finding

/-! ### The symbols of the kept findings -/

/-- What the symbol of a well placed header says about it. -/
theorem Source.Places.symbol_eq {source : Source} {family : RuleFamily} {h : Header} {s : Symbol}
    (hh : source.Places family h) (hs : h.symbol? source = some s) :
    s.name = String.ofList h.name ∧ s.kind = h.kind ∧ s.startLine = source.lineAt h.start ∧
      s.endLine = h.endLine := by
  obtain ⟨signature, body, heq⟩ := Header.symbol?_eq hh.heads hh.boundary
  cases heq.symm.trans hs
  exact ⟨rfl, rfl, rfl, Nat.max_eq_left hh.lineAt_start_le⟩

/-- The symbol is that of the header of the finding. -/
def Finding.Yields (source : Source) (f : Finding) (s : Symbol) : Prop :=
  ∃ h, f.header = some h ∧ h.symbol? source = some s

namespace Extraction

/-- The places of the symbols are those of some findings. -/
def Covers (source : Source) (symbols : List Symbol) (findings : List Finding) : Prop :=
  ∀ name line, (∃ s ∈ symbols, s.name = String.ofList name ∧ s.startLine = line) ↔
    ∃ f ∈ findings, f.place? source = some (name, line)

/-- **One finding**: its symbol is pushed away exactly if its place is taken. -/
theorem push_of_covers {family : RuleFamily} {source : Source} {e : Extraction} {before : List Finding} {f : Finding}
    {h : Header} {s : Symbol} (hcovers : Covers source e.symbols before) (hh : f.header = some h)
    (hplaces : source.Places family h) (hs : h.symbol? source = some s) :
    (e.push s).symbols = (if Finding.isTaken source before f then e.symbols else e.symbols ++ [s]) ∧
      Covers source (e.push s).symbols (before ++ [f]) := by
  obtain ⟨hname, -, hline, -⟩ := hplaces.symbol_eq hs
  have hplace : f.place? source = some (h.place source) := by rw [Finding.place?, hh]; rfl
  have hany : (e.symbols.any fun t => t.startLine == s.startLine && t.name == s.name) = true ↔
      Finding.isTaken source before f = true := by
    rw [Finding.isTaken_iff hh, Header.place, ← hcovers, List.any_eq_true]
    simp only [Bool.and_eq_true, beq_iff_eq, hname, hline]
    exact exists_congr fun t => and_congr_right fun _ => and_comm
  have hpush : (e.push s).symbols = if Finding.isTaken source before f then e.symbols else e.symbols ++ [s] := by
    rw [push]
    by_cases htaken : Finding.isTaken source before f = true
    · rw [if_pos (hany.mpr htaken), if_pos htaken]
    · rw [if_neg fun hmem => htaken (hany.mp hmem), if_neg htaken]
  refine ⟨hpush, fun name line => ?_⟩
  rw [hpush]
  by_cases htaken : Finding.isTaken source before f = true
  · obtain ⟨g, hg, hsame⟩ := (Finding.isTaken_iff hh).mp htaken
    rw [if_pos htaken, hcovers]
    constructor
    · rintro ⟨k, hk, hplace'⟩
      exact ⟨k, List.mem_append_left _ hk, hplace'⟩
    · rintro ⟨k, hk, hplace'⟩
      rcases List.mem_append.mp hk with hk | hk
      · exact ⟨k, hk, hplace'⟩
      · rw [List.mem_singleton.mp hk, hplace] at hplace'
        exact ⟨g, hg, by rw [hsame, hplace']⟩
  · rw [if_neg htaken]
    simp only [List.mem_append, List.mem_singleton, or_and_right, exists_or, exists_eq_left]
    refine or_congr (hcovers name line) ?_
    rw [hplace, Header.place, hname, hline, Option.some.injEq, Prod.mk.injEq, String.ofList_inj]

/-- **All findings**: what is added to the symbols are those of the kept findings, in order. -/
theorem foldl_push_of_covers {family : RuleFamily} {source : Source} (findings : List Finding) :
    ∀ {before : List Finding} {symbols : List Symbol} {e : Extraction},
      (∀ h ∈ findings.filterMap Finding.header, source.Places family h) →
      List.Forall₂ (fun h s => h.symbol? source = some s) (findings.filterMap Finding.header) symbols →
      Covers source e.symbols before →
      ∃ more, (symbols.foldl push e).symbols = e.symbols ++ more ∧
        List.Forall₂ (Finding.Yields source)
          (filterAfter (fun before f => f.header.isSome && !Finding.isTaken source before f) before findings) more := by
  induction findings with
  | nil =>
    intro before symbols e _ hsymbols _
    cases hsymbols
    exact ⟨[], (List.append_nil _).symm, .nil⟩
  | cons f rest ih =>
    intro before symbols e hplaces hsymbols hcovers
    cases hh : f.header with
    | none =>
      rw [List.filterMap_cons_none hh] at hplaces hsymbols
      have hcovers' : Covers source e.symbols (before ++ [f]) := by
        intro name line
        rw [hcovers]
        simp [or_and_right, exists_or, Finding.place?, hh]
      obtain ⟨more, hmore, hyields⟩ := ih hplaces hsymbols hcovers'
      refine ⟨more, hmore, ?_⟩
      rwa [filterAfter, hh, Option.isSome_none, Bool.false_and, if_neg Bool.false_ne_true]
    | some h =>
      rw [List.filterMap_cons_some hh] at hplaces hsymbols
      cases hsymbols with
      | @cons _ s _ symbols hs hsymbols =>
        obtain ⟨hpush, hcovers'⟩ := push_of_covers hcovers hh (hplaces h List.mem_cons_self) hs
        obtain ⟨more, hmore, hyields⟩ := ih (fun h' hh' => hplaces h' (List.mem_cons_of_mem h hh')) hsymbols hcovers'
        rw [List.foldl_cons, hmore, hpush, filterAfter, hh, Option.isSome_some, Bool.true_and]
        cases htaken : Finding.isTaken source before f with
        | true => exact ⟨more, rfl, hyields⟩
        | false => exact ⟨s :: more, List.append_assoc _ _ _, .cons ⟨h, hh, hs⟩ hyields⟩

theorem foldl_push_unterminated (symbols : List Symbol) :
    ∀ {e : Extraction}, (symbols.foldl push e).unterminated = e.unterminated := by
  induction symbols with
  | nil => intro e; rfl
  | cons s rest ih =>
    intro e
    rw [List.foldl_cons, ih, push]
    split <;> rfl

/-- **The symbols of an extraction** are those of the kept findings, each of one finding. -/
theorem exists_kept (family : RuleFamily) (source : Source) :
    ∃ findings e symbols, findings? family source = some findings ∧ ofFamily? family source = some e ∧
      (∀ h ∈ findings.filterMap Finding.header, source.Places family h) ∧
      e.unterminated = findings.countP Finding.unterminated ∧ e.symbols.Perm symbols ∧
      List.Forall₂ (Finding.Yields source) (Finding.kept source findings) symbols := by
  obtain ⟨findings, symbols, includes, hfindings, hplaces, hsymbols, he⟩ := exists_steps family source
  have hnone : Covers source [] [] := fun name line => by simp
  obtain ⟨more, hmore, hyields⟩ := foldl_push_of_covers findings hplaces hsymbols
    (e := ⟨[], includes, findings.countP Finding.unterminated⟩) hnone
  refine ⟨findings, _, more, hfindings, he, hplaces, foldl_push_unterminated symbols, ?_, hyields⟩
  rw [finish, hmore, List.nil_append]
  exact sortBy_perm more

end Extraction

end CodeAtlas
