import CodeAtlas.Proofs.EdgeMentions

/-!
# Mentions and whole words

An identifier that is met goes on to its last character, but what stands before it is not looked at. A digit, or a
letter that is not ASCII, can stand inside of an identifier and cannot start one, so behind such characters an
identifier starts in the middle of a word: the suffix of a number is one. This file says which words of a text are
mentioned, and when all edges of a symbol lead to names that stand in its code as words of their own.

* `Text.HasWord`: a text has a word with no part of an identifier at its ends;
* `Text.Clips`: it has an identifier that is cut off from a longer word;
* `Scans.opens`, `Scans.complete`: where the identifiers that are met start;
* `mem_mentions_iff`: they are the identifiers which the text has as words or which it clips;
* `edges_follow_words_iff`: so the edges lead to whole words unless a known name is clipped only.
-/

namespace CodeAtlas

namespace Text

/-- No identifier comes from the end of the text. -/
def EndsApart (text : Text) : Prop :=
  ∀ c, text.getLast? = some c → isIdentifierPart c = false

/-- The characters can be part of an identifier, but none of them starts one. -/
def NeverStarts (run : Text) : Prop :=
  ∀ c ∈ run, isIdentifierPart c = true ∧ isIdentifierStart c = false

/-- The word occurs in the text with no part of an identifier right before it or right behind it. -/
def HasWord (text word : Text) : Prop :=
  ∃ before after : Text, text = before ++ word ++ after ∧ before.EndsApart ∧ after.StartsApart

/-- The identifier is the end of a longer word of the text, behind characters that cannot start one. -/
def Clips (text word : Text) : Prop :=
  word.IsIdentifier ∧ ∃ before run after : Text, text = before ++ run ++ word ++ after ∧ before.EndsApart ∧
    run ≠ [] ∧ run.NeverStarts ∧ after.StartsApart

/-- An identifier can start behind the text: of the word at its end, if there is one, no character starts an
identifier. -/
def Opens (text : Text) : Prop :=
  ∃ before run : Text, text = before ++ run ∧ before.EndsApart ∧ run.NeverStarts

theorem endsApart_concat (text : Text) {c : Char} (hc : isIdentifierPart c = false) : EndsApart (text ++ [c]) := by
  intro d hd
  rw [List.getLast?_concat, Option.some.injEq] at hd
  rw [← hd]
  exact hc

theorem opens_of_endsApart {text : Text} (h : text.EndsApart) : text.Opens :=
  ⟨text, [], (List.append_nil text).symm, h, fun _ hc => (List.not_mem_nil hc).elim⟩

/-- A character that starts no identifier leaves it open. -/
theorem Opens.concat {text : Text} (h : text.Opens) {c : Char} (hc : isIdentifierStart c = false) :
    Opens (text ++ [c]) := by
  cases hpart : isIdentifierPart c with
  | false => exact opens_of_endsApart (endsApart_concat text hpart)
  | true =>
    obtain ⟨before, run, rfl, hbefore, hrun⟩ := h
    refine ⟨before, run ++ [c], List.append_assoc before run [c], hbefore, ?_⟩
    intro d hd
    rcases List.mem_append.mp hd with hd | hd
    · exact hrun d hd
    · rw [List.mem_singleton.mp hd]
      exact ⟨hpart, hc⟩

/-- Inside of an identifier no other one starts. -/
theorem not_opens_inside {left more : Text} {c : Char} (hc : isIdentifierStart c = true)
    (hmore : ∀ d ∈ more, isIdentifierPart d = true) : ¬ Opens (left ++ c :: more) := by
  intro h
  obtain ⟨before, run, hsplit, hbefore, hrun⟩ := h
  -- the start is no character of the run
  have hstart : c ∉ run := by
    intro hmem
    rw [(hrun c hmem).2] at hc
    cases hc
  rcases List.append_eq_append_iff.mp hsplit with ⟨e, rfl, he⟩ | ⟨e, hleft, he⟩
  · cases e with
    | nil =>
      rw [List.nil_append] at he
      exact hstart (he ▸ List.mem_cons_self)
    | cons d e =>
      obtain ⟨rfl, rfl⟩ := List.cons.inj he
      -- so what is before the run ends with a part of the identifier
      have hlast := hbefore ((c :: e).getLast (List.cons_ne_nil c e)) (by
        rw [List.getLast?_append, List.getLast?_eq_some_getLast (List.cons_ne_nil c e)]
        rfl)
      have hpart : ∀ d ∈ c :: e, isIdentifierPart d = true := by
        intro d hd
        rcases List.mem_cons.mp hd with rfl | hd
        · exact isIdentifierPart_of_isIdentifierStart hc
        · exact hmore d (List.mem_append_left run hd)
      rw [hpart _ (List.getLast_mem _)] at hlast
      cases hlast
  · exact hstart (he ▸ List.mem_append_right e List.mem_cons_self)

/-- The two ways in which an identifier can stand in a text differ only in what precedes it. -/
theorem hasWord_or_clips_iff {text word : Text} :
    (word.IsIdentifier ∧ text.HasWord word) ∨ text.Clips word
      ↔ word.IsIdentifier ∧ ∃ before after : Text, text = before ++ word ++ after ∧ before.Opens ∧
          after.StartsApart := by
  constructor
  · intro h
    rcases h with ⟨hword, before, after, htext, hbefore, hafter⟩ | ⟨hword, before, run, after, htext, hrest⟩
    · exact ⟨hword, before, after, htext, opens_of_endsApart hbefore, hafter⟩
    · obtain ⟨hbefore, -, hrun, hafter⟩ := hrest
      exact ⟨hword, before ++ run, after, htext, ⟨before, run, rfl, hbefore, hrun⟩, hafter⟩
  · intro h
    obtain ⟨hword, opened, after, htext, ⟨before, run, rfl, hbefore, hrun⟩, hafter⟩ := h
    cases run with
    | nil =>
      rw [List.append_nil] at htext
      exact .inl ⟨hword, before, after, htext, hbefore, hafter⟩
    | cons c run =>
      exact .inr ⟨hword, before, c :: run, after, htext, hbefore, List.cons_ne_nil c run, hrun, hafter⟩

end Text

/-! ### Where identifiers start -/

/-- Identifiers are met only where one can start. On the way this holds of what was read, or the word at its end is
over. -/
theorem Scans.opens {left rest : Text} {found : List (Text × Text)} (h : Scans left rest found) :
    left.Opens ∨ rest.StartsApart → ∀ t ∈ found, Text.Opens t.1 := by
  induction h with
  | done left => intro _ t ht; cases ht
  | @skip left rest c found hc h ih =>
    intro hready
    apply ih
    left
    rcases hready with hopens | hapart
    · exact hopens.concat hc
    · exact Text.opens_of_endsApart (Text.endsApart_concat left (hapart c rfl))
  | @word left tail rest c found hc htail hrest h ih =>
    intro hready t ht
    rcases List.mem_cons.mp ht with rfl | ht
    · refine hready.resolve_right ?_
      intro hapart
      have hpart := hapart c rfl
      rw [isIdentifierPart_of_isIdentifierStart hc] at hpart
      cases hpart
    · exact ih (.inr hrest) t ht

/-- Where an identifier can start, a whole one is met. -/
theorem Scans.complete {left rest : Text} {found : List (Text × Text)} (h : Scans left rest found) :
    ∀ {more word after : Text}, rest = more ++ word ++ after → word.IsIdentifier → after.StartsApart →
      Text.Opens (left ++ more) → (left ++ more, word) ∈ found := by
  induction h with
  | done left =>
    intro more word after hrest hword _ _
    obtain ⟨d, w, rfl, -⟩ := hword
    simp at hrest
  | @skip left rest c found hc h ih =>
    intro more word after hrest hword hafter hopens
    cases more with
    | nil =>
      obtain ⟨d, w, rfl, hd, -⟩ := hword
      rw [show c = d from (List.cons.inj hrest).1, hd] at hc
      cases hc
    | cons d more =>
      rw [List.cons_append, List.cons_append] at hrest
      obtain ⟨rfl, hbehind⟩ := List.cons.inj hrest
      rw [show left ++ c :: more = left ++ [c] ++ more from by simp] at hopens ⊢
      exact ih hbehind hword hafter hopens
  | @word left tail rest c found hc htail hrest h ih =>
    intro more word after hsplit hword hafter hopens
    cases more with
    | nil =>
      -- both identifiers start here, and both go on as far as they can
      obtain ⟨d, w, rfl, -, hw⟩ := hword
      rw [List.nil_append, List.cons_append] at hsplit
      obtain ⟨rfl, hbehind⟩ := List.cons.inj hsplit
      obtain ⟨rfl, -⟩ := append_inj_of_all htail hw hrest hafter hbehind
      rw [List.append_nil]
      exact List.mem_cons_self
    | cons d more =>
      rw [List.cons_append, List.cons_append, List.append_assoc] at hsplit
      obtain ⟨rfl, hbehind⟩ := List.cons.inj hsplit
      rcases List.append_eq_append_iff.mp hbehind with ⟨e, rfl, he⟩ | ⟨e, rfl, -⟩
      · -- the other identifier stands behind this one
        rw [show left ++ c :: (tail ++ e) = left ++ c :: tail ++ e from by simp] at hopens ⊢
        exact List.mem_cons_of_mem _ (ih (by rw [he, List.append_assoc]) hword hafter hopens)
      · exact absurd hopens (Text.not_opens_inside hc fun x hx => htail x (List.mem_append_left e hx))

/-- **What is mentioned**: the identifiers that a text has as words, and those that it clips. -/
theorem mem_mentions_iff (line : Nat) (text word : Text) :
    word ∈ (mentions line text).map Mention.word
      ↔ (word.IsIdentifier ∧ text.HasWord word) ∨ text.Clips word := by
  obtain ⟨found, hfound⟩ := scans_of_text text
  rw [hfound.mentions_eq line, List.map_map, Text.hasWord_or_clips_iff]
  have hnil : Text.Opens [] := Text.opens_of_endsApart (by intro c hc; cases hc)
  constructor
  · intro hword
    obtain ⟨t, ht, rfl⟩ := List.mem_map.mp hword
    obtain ⟨after, htext, hidentifier, hafter⟩ := hfound.sound t ht
    exact ⟨hidentifier, t.1, after, htext, hfound.opens (.inl hnil) t ht, hafter⟩
  · intro h
    obtain ⟨hidentifier, before, after, htext, hopens, hafter⟩ := h
    exact List.mem_map.mpr ⟨(before, word), hfound.complete htext hidentifier hafter hopens, rfl⟩

/-! ### Edges and words -/

/-- A symbol of a table has an edge to a name if the name is known, is not its own, and is mentioned. -/
theorem SymbolTable.callEdges_callee_iff (table : SymbolTable) (s : Symbol) (name : String) :
    (∃ edge ∈ table.callEdges s, edge.callee = name)
      ↔ (table.containsName name = true ∧ name ≠ s.name) ∧
          ((Text.IsIdentifier name.toList ∧ Text.HasWord (table.codeOf s) name.toList) ∨
            Text.Clips (table.codeOf s) name.toList) := by
  have hedges := edgesOf_foldl s table.containsName _ (mentions_lines_ascend s.startLine (table.codeOf s))
  rw [table.callEdges_eq_foldl, hedges.callee_iff, ← mem_mentions_iff s.startLine]
  refine and_congr_right fun _ => ?_
  rw [List.map_map, List.mem_map, List.mem_map]
  constructor
  · intro h
    obtain ⟨m, hm, rfl⟩ := h
    exact ⟨m, hm, String.toList_ofList.symm⟩
  · intro h
    obtain ⟨m, hm, hword⟩ := h
    refine ⟨m, hm, ?_⟩
    show String.ofList m.word = name
    rw [hword, String.ofList_toList]

/-- **When edges lead to whole words.** A symbol of a table has its source there, and this has code for its lines. The
symbol has edges to the known names other than its own which the code has as words or which it clips, and to no
others. So all its edges lead to names that the code has as words exactly if the code has every such name as a word
that it clips. -/
theorem edges_follow_words_iff (sources : List Source) (limits : Limits) (s : Symbol)
    (hs : s ∈ (SymbolTable.ofSources sources).symbols) :
    ∃ source code, (SymbolTable.ofSources sources).source? s.file = some source ∧
      source.codeLines? s.startLine s.endLine = some code ∧
      (∀ name, (∃ edge ∈ (CallGraph.ofSources sources limits).edgesOf s, edge.callee = name)
        ↔ ((SymbolTable.ofSources sources).containsName name = true ∧ name ≠ s.name) ∧
            ((Text.IsIdentifier name.toList ∧ code.HasWord name.toList) ∨ code.Clips name.toList)) ∧
      ((∀ edge ∈ (CallGraph.ofSources sources limits).edgesOf s, code.HasWord edge.callee.toList)
        ↔ ∀ name, (SymbolTable.ofSources sources).containsName name = true → name ≠ s.name →
            code.Clips name.toList → code.HasWord name.toList) := by
  obtain ⟨source, hsource⟩ := SymbolTable.exists_source? hs
  obtain ⟨code, hcode⟩ := source.exists_codeLines? s.startLine s.endLine
  have hcallees := (SymbolTable.ofSources sources).callEdges_callee_iff s
  rw [SymbolTable.codeOf_eq hsource hcode, ← CallGraph.edgesOf_ofSources limits hs] at hcallees
  refine ⟨source, code, hsource, hcode, hcallees, ?_, ?_⟩
  · intro hwords name hknown hother hclips
    obtain ⟨edge, hedge, rfl⟩ := (hcallees name).mpr ⟨⟨hknown, hother⟩, .inr hclips⟩
    exact hwords edge hedge
  · intro hwords edge hedge
    obtain ⟨⟨hknown, hother⟩, hstands⟩ := (hcallees edge.callee).mp ⟨edge, hedge, rfl⟩
    rcases hstands with ⟨-, hword⟩ | hclips
    · exact hword
    · exact hwords edge.callee hknown hother hclips

/-- A function with a number that has a suffix, which is the name of another function that it calls. -/
def suffixAndCall : Source :=
  Source.ofText "a.c" .c "long f() { return 10L + L(); }\nlong L() { return 0; }\n".toList

/-- The function with the number. -/
def suffixAndCallSymbol : Symbol :=
  ⟨"f", .function, "a.c", 1, 1, "long f()", "long f() { return 10L + L(); }"⟩

/-- The function that has the suffix as its name. -/
def suffixNamedSymbol : Symbol :=
  ⟨"L", .function, "a.c", 2, 2, "long L()", "long L() { return 0; }"⟩

/-- The suffix is clipped, but the code has the name as a word too. -/
theorem suffixAndCall_follows_words :
    suffixAndCallSymbol ∈ (SymbolTable.ofSources [suffixAndCall]).symbols ∧
    ∃ source code, (SymbolTable.ofSources [suffixAndCall]).source? "a.c" = some source ∧
      source.codeLines? 1 1 = some code ∧ code.Clips ['L'] ∧
      (∃ edge ∈ (CallGraph.ofSources [suffixAndCall] {}).edgesOf suffixAndCallSymbol, edge.callee = "L") ∧
      ∀ edge ∈ (CallGraph.ofSources [suffixAndCall] {}).edgesOf suffixAndCallSymbol,
        code.HasWord edge.callee.toList := by
  have hextraction : (Extraction.ofSource suffixAndCall).symbols = [suffixAndCallSymbol, suffixNamedSymbol] := by
    decide +kernel
  have hsymbols : ∀ s, s ∈ (SymbolTable.ofSources [suffixAndCall]).symbols
      ↔ s ∈ (Extraction.ofSource suffixAndCall).symbols := by
    intro s
    rw [SymbolTable.mem_ofSources_iff (by decide)]
    simp
  have hcode : suffixAndCall.codeLines? 1 1 = some "long f() { return 10L + L(); }".toList := by decide +kernel
  have hmem : suffixAndCallSymbol ∈ (SymbolTable.ofSources [suffixAndCall]).symbols := by
    rw [hsymbols, hextraction]
    exact List.mem_cons_self
  have hdigits : Text.NeverStarts ['1', '0'] := by
    intro c hc
    rcases List.mem_cons.mp hc with rfl | hc
    · decide
    · rw [List.mem_singleton.mp hc]
      decide
  have hclips : Text.Clips "long f() { return 10L + L(); }".toList ['L'] :=
    ⟨⟨'L', [], rfl, rfl, by simp⟩, "long f() \x7b return".toList ++ [' '], ['1', '0'], " + L(); \x7d".toList,
      by decide, Text.endsApart_concat _ rfl, by simp, hdigits, by intro c hc; cases hc; rfl⟩
  have hword : Text.HasWord "long f() { return 10L + L(); }".toList ['L'] :=
    ⟨"long f() \x7b return 10L +".toList ++ [' '], "(); \x7d".toList, by decide, Text.endsApart_concat _ rfl,
      by intro c hc; cases hc; rfl⟩
  obtain ⟨source, code, hsource, hlines, hcallees, hiff⟩ :=
    edges_follow_words_iff [suffixAndCall] {} suffixAndCallSymbol hmem
  have hstored : (SymbolTable.ofSources [suffixAndCall]).source? suffixAndCall.key = some suffixAndCall :=
    SymbolTable.source?_ofSources (by decide) List.mem_cons_self
  cases hsource.symm.trans hstored
  cases hlines.symm.trans hcode
  have hknown : (SymbolTable.ofSources [suffixAndCall]).containsName "L" = true := by
    rw [SymbolTable.containsName_iff]
    refine ⟨suffixNamedSymbol, (hsymbols _).mpr ?_, rfl⟩
    rw [hextraction]
    exact List.mem_cons_of_mem _ List.mem_cons_self
  refine ⟨hmem, suffixAndCall, _, hstored, hcode, hclips,
    (hcallees "L").mpr ⟨⟨hknown, by decide⟩, .inr hclips⟩, hiff.mpr ?_⟩
  intro name hname hother _
  rw [SymbolTable.containsName_iff] at hname
  obtain ⟨s, hs, rfl⟩ := hname
  rw [hsymbols, hextraction] at hs
  rcases List.mem_cons.mp hs with rfl | hs
  · exact absurd rfl hother
  · rw [List.mem_singleton.mp hs]
    exact hword

/-- The same without the call. -/
def suffixOnly : Source :=
  Source.ofText "a.c" .c "long f() { return 10L; }\nlong L() { return 0; }\n".toList

/-- The function with the number. -/
def suffixOnlySymbol : Symbol :=
  ⟨"f", .function, "a.c", 1, 1, "long f()", "long f() { return 10L; }"⟩

/-- The suffix of a number draws an edge to the function of that name, which the code does not have as a word. -/
theorem suffixOnly_draws_edge :
    suffixOnlySymbol ∈ (SymbolTable.ofSources [suffixOnly]).symbols ∧
    (SymbolTable.ofSources [suffixOnly]).source? "a.c" = some suffixOnly ∧
    (CallGraph.ofSources [suffixOnly] {}).edgesOf suffixOnlySymbol = [⟨suffixOnlySymbol.id, "L", [1]⟩] ∧
    ∃ code, suffixOnly.codeLines? 1 1 = some code ∧ ¬ code.HasWord "L".toList := by
  have hfirst : (SymbolTable.ofSources [suffixOnly]).symbols[0]? = some suffixOnlySymbol ∧
      (CallGraph.ofSources [suffixOnly] {}).edgesOf suffixOnlySymbol = [⟨suffixOnlySymbol.id, "L", [1]⟩] := by decide +kernel
  have hcode : suffixOnly.codeLines? 1 1
      = some ("long f() \x7b return 10".toList ++ 'L' :: "; \x7d".toList) := by decide +kernel
  refine ⟨List.mem_of_getElem? hfirst.1, SymbolTable.source?_ofSources (by decide) List.mem_cons_self, hfirst.2, _,
    hcode, ?_⟩
  intro hword
  obtain ⟨before, after, hsplit, hbefore, -⟩ := hword
  rw [List.append_assoc, show "L".toList ++ after = 'L' :: after from rfl] at hsplit
  -- the letter occurs once, so the digit stands before it
  have hnone : 'L' ∉ before := by
    have hcount := congrArg (List.count 'L') hsplit
    rw [show List.count 'L' ("long f() \x7b return 10".toList ++ 'L' :: "; \x7d".toList) = 1 from by decide,
      List.count_append, List.count_cons_self] at hcount
    exact List.count_eq_zero.mp (by omega)
  obtain ⟨rfl, -⟩ := append_cons_inj_of_not_mem (by decide) hnone hsplit
  exact absurd (hbefore '0' rfl) (by decide)

end CodeAtlas
