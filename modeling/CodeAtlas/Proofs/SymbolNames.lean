import CodeAtlas.Proofs.ExtractedSymbols

/-!
# What the name of a symbol can hold

A rule takes the name of a definition from the first group of a header. What a group holds was read by the part of
the pattern inside of it, so that a character which no class of that part holds is in no name.

* `Pattern.groupAvoids`, `Pattern.Finds.not_mem_group`: what a group of a match does not hold;
* `CFamily.nameAvoids_findings?`, `Python.nameAvoids_findings?`, `Braces.nameAvoids_findings?`: the names that the
  rules of a family find;
* `Extraction.nul_not_mem_name`: no name of a symbol holds a NUL.
-/

namespace CodeAtlas

/-! ### What a group holds -/

namespace Pattern

/-- Whether no class inside of the groups of a number holds a character. -/
def groupAvoids (c : Char) (number : Nat) : Pattern → Bool
  | seq (mark slot) (seq p (mark _)) => slot != 2 * number || p.avoids c
  | seq a b => a.groupAvoids c number && b.groupAvoids c number
  | choice a b => a.groupAvoids c number && b.groupAvoids c number
  | many _ body => body.groupAvoids c number
  | _ => true

theorem groupAvoids_seq {a b : Pattern} {c : Char} {number : Nat} (ha : a.grouped = true) :
    (seq a b).groupAvoids c number = (a.groupAvoids c number && b.groupAvoids c number) := by
  cases a with
  | mark slot => cases ha
  | _ => rfl

/-- The recorded offsets are those of groups of the text, and the groups of a number do not hold a character. -/
inductive GroupsAvoid (text : Text) (c : Char) (number : Nat) : Marks → Prop
  | nil : GroupsAvoid text c number []
  | group (n : Nat) {before inner after : Text} {m : Marks} (others : GroupsAvoid text c number m)
      (htext : text = before ++ inner ++ after) (havoids : n = number → c ∉ inner) :
      GroupsAvoid text c number ((2 * n + 1, (before ++ inner).size) :: (2 * n, before.size) :: m)

section

variable {text : Text} {c : Char} {number : Nat}

theorem GroupsAvoid.append {m m' : Marks} (h : GroupsAvoid text c number m) (h' : GroupsAvoid text c number m') :
    GroupsAvoid text c number (m' ++ m) := by
  induction h' with
  | nil => exact h
  | group n _ htext havoids ih => exact .group n ih htext havoids

theorem GroupsAvoid.of_lookup {m : Marks} {start stop : Nat} (h : GroupsAvoid text c number m)
    (hstart : m.lookup (2 * number) = some start) (hstop : m.lookup (2 * number + 1) = some stop) :
    ∃ before inner after : Text, text = before ++ inner ++ after ∧ start = before.size ∧
      stop = (before ++ inner).size ∧ c ∉ inner := by
  induction h with
  | nil => cases hstart
  | @group n before inner after m _ htext havoids ih =>
    have hodd : (2 * number == 2 * n + 1) = false := beq_eq_false_iff_ne.mpr (by omega)
    have heven : (2 * number + 1 == 2 * n) = false := beq_eq_false_iff_ne.mpr (by omega)
    simp only [List.lookup_cons, hodd, heven] at hstart hstop
    by_cases hn : n = number
    · subst hn
      simp only [beq_self_eq_true, Option.some.injEq] at hstart hstop
      exact ⟨before, inner, after, htext, hstart.symm, hstop.symm, havoids rfl⟩
    · have hstart' : (2 * number == 2 * n) = false := beq_eq_false_iff_ne.mpr (by omega)
      have hstop' : (2 * number + 1 == 2 * n + 1) = false := beq_eq_false_iff_ne.mpr (by omega)
      simp only [hstart', hstop'] at hstart hstop
      exact ih hstart hstop

/-- What a pattern records on its way are groups, and those of a number hold only what is read inside of them. -/
theorem Reads.groupsAvoid {p : Pattern} {k k' : Place} (h : Reads p k k') (hp : p.grouped = true)
    (havoids : p.groupAvoids c number = true) :
    ∃ m, k'.marks = m ++ k.marks ∧ GroupsAvoid (k.before ++ k.after) c number m := by
  induction h with
  | empty k => exact ⟨[], rfl, .nil⟩
  | char position h l r m => exact ⟨[], rfl, .nil⟩
  | @seq a b k k' k'' hfirst hsecond ih ih' =>
    rcases eq_group_or_grouped hp with ⟨n, q, rfl, rfl, hq⟩ | ⟨ha, hb⟩
    · cases hfirst with
      | mark _ l r m =>
        cases hsecond with
        | @seq _ _ _ k' _ hbody hstop =>
          cases hstop with
          | mark _ l' r' m' =>
            have hmarks := hbody.marks_eq hq
            obtain ⟨inner, hbefore, hafter, hinner⟩ : ∃ inner, l' = l ++ inner ∧ r = inner ++ r' ∧
                (n = number → c ∉ inner) := by
              by_cases hn : n = number
              · have hbodyAvoids : q.avoids c = true := by
                  subst hn
                  simpa [groupAvoids] using havoids
                obtain ⟨inner, hbefore, hafter, hc⟩ := hbody.avoids hbodyAvoids
                exact ⟨inner, hbefore, hafter, fun _ => hc⟩
              · obtain ⟨inner, hbefore, hafter⟩ := hbody.exists_read
                exact ⟨inner, hbefore, hafter, fun hn' => absurd hn' hn⟩
            dsimp only at hmarks
            subst hmarks hbefore hafter
            refine ⟨[(2 * n + 1, (l ++ inner).size), (2 * n, l.size)], rfl, ?_⟩
            exact .group n .nil (List.append_assoc _ _ _).symm hinner
    · rw [groupAvoids_seq ha, Bool.and_eq_true] at havoids
      obtain ⟨m, hm, hgroups⟩ := ih ha havoids.1
      obtain ⟨m', hm', hgroups'⟩ := ih' hb havoids.2
      rw [← hfirst.text_eq] at hgroups'
      exact ⟨m' ++ m, by rw [hm', hm, List.append_assoc], hgroups.append hgroups'⟩
  | left _ ih => exact ih (Bool.and_eq_true_iff.mp hp).1 (Bool.and_eq_true_iff.mp havoids).1
  | right _ ih => exact ih (Bool.and_eq_true_iff.mp hp).2 (Bool.and_eq_true_iff.mp havoids).2
  | stop greedy body k => exact ⟨[], rfl, .nil⟩
  | round hfirst _ ih ih' =>
    obtain ⟨m, hm, hgroups⟩ := ih hp havoids
    obtain ⟨m', hm', hgroups'⟩ := ih' hp havoids
    rw [← hfirst.text_eq] at hgroups'
    exact ⟨m' ++ m, by rw [hm', hm, List.append_assoc], hgroups.append hgroups'⟩
  | mark slot l r m => cases hp
  | lineStart _ => exact ⟨[], rfl, .nil⟩
  | wordEdge _ => exact ⟨[], rfl, .nil⟩

/-- A group holds no character that the pattern keeps out of it. -/
theorem Finds.not_mem_group {p : Pattern} {m : Match} (h : p.Finds text m) (hp : p.grouped = true)
    (havoids : p.groupAvoids c number = true) {span : Span} (hgroup : m.group? number = some span) {part : Text}
    (hpart : text.slice? span.start span.stop = some part) : c ∉ part := by
  obtain ⟨l, r, l', r', htext, -, hreads⟩ := h
  obtain ⟨marks, hmarks, hgroups⟩ := hreads.groupsAvoid hp havoids
  rw [List.append_nil] at hmarks
  dsimp only at hmarks hgroups
  rw [Match.group?, hmarks] at hgroup
  split at hgroup
  · rename_i start stop hstart hstop
    cases hgroup
    obtain ⟨before, inner, after, hsplit, rfl, rfl, hc⟩ := hgroups.of_lookup hstart hstop
    rw [htext, hsplit, Text.slice?_size] at hpart
    cases hpart
    exact hc
  · cases hgroup

end

end Pattern

/-! ### The names of headers -/

theorem exists_of_mem_mapM {α β : Type} {f : α → Option β} {xs : List α} {ys : List β}
    (h : xs.mapM f = some ys) {y : β} (hy : y ∈ ys) : ∃ x ∈ xs, f x = some y := by
  obtain ⟨i, hi, rfl⟩ := List.mem_iff_getElem.mp hy
  have hall := forall₂_of_mapM h
  have hi' : i < xs.length := by rwa [hall.length_eq]
  exact ⟨_, List.getElem_mem hi', hall.get hi' hi⟩

/-- The name of the header that a finding has, if any, does not hold a character. -/
def Finding.NameAvoids (c : Char) (f : Finding) : Prop :=
  ∀ h, f.header = some h → c ∉ h.name

theorem Finding.nameAvoids_none (c : Char) (unterminated : Bool) : NameAvoids c ⟨none, unterminated⟩ := by
  intro h hh
  cases hh

namespace CFamily

open Pattern

theorem mem_of_mem_beforeColons {c : Char} {text : Text} (h : c ∈ beforeColons text) : c ∈ text := by
  fun_induction beforeColons text with
  | case1 => exact h
  | case2 rest => cases h
  | case3 d rest _ ih =>
    rcases List.mem_cons.mp h with h | h
    · exact h ▸ List.mem_cons_self
    · exact List.mem_cons_of_mem d (ih h)

theorem mem_of_mem_shortName {c : Char} {qualified : Text} (h : c ∈ shortName qualified) : c ∈ qualified := by
  rw [shortName, List.mem_reverse] at h
  exact List.mem_reverse.mp (mem_of_mem_beforeColons h)

theorem nameAvoids_functionAt? {c : Char} {source : Source} {m : Match} {f : Finding}
    (hc : functionHeader.groupAvoids c 1 = true) (hm : m ∈ functionHeader.findAll source.code)
    (hf : functionAt? source m = some f) : f.NameAvoids c := by
  have hfinds := finds_of_mem_findAll hm
  unfold functionAt? at hf
  cases hgroup : m.group? 1 with
  | none =>
    rw [hgroup] at hf
    cases hf
    exact Finding.nameAvoids_none c false
  | some group =>
    simp only [hgroup, Option.bind_eq_bind, Option.bind_eq_some_iff] at hf
    obtain ⟨qualified, hqualified, hf⟩ := hf
    have hname := hfinds.not_mem_group (by decide) hc hgroup hqualified
    split_ifs at hf
    · cases hf
      exact Finding.nameAvoids_none c false
    · rw [Option.bind_eq_some_iff] at hf
      obtain ⟨openParen, -, hf⟩ := hf
      split at hf
      · rw [Option.bind_eq_some_iff] at hf
        obtain ⟨rest, -, hf⟩ := hf
        split at hf
        · rw [Option.bind_eq_some_iff] at hf
          obtain ⟨before, -, hf⟩ := hf
          split_ifs at hf
          · cases hf
            exact Finding.nameAvoids_none c false
          · cases hf
            intro h hh
            cases hh
            exact fun hmem => hname (mem_of_mem_shortName hmem)
        · cases hf
          exact Finding.nameAvoids_none c false
      · cases hf
        exact Finding.nameAvoids_none c false

theorem nameAvoids_recordAt? {c : Char} {source : Source} {m : Match} {f : Finding}
    (hc : recordHeader.groupAvoids c 1 = true) (hm : m ∈ recordHeader.findAll source.code)
    (hf : recordAt? source m = some f) : f.NameAvoids c := by
  unfold recordAt? at hf
  cases hgroup : m.group? 1 with
  | none =>
    rw [hgroup] at hf
    cases hf
    exact Finding.nameAvoids_none c false
  | some group =>
    simp only [hgroup, Option.bind_eq_bind, Option.bind_eq_some_iff] at hf
    obtain ⟨name, hslice, openBrace, -, hf⟩ := hf
    cases hf
    intro h hh
    cases hh
    exact (finds_of_mem_findAll hm).not_mem_group (by decide) hc hgroup hslice

theorem nameAvoids_typedefAt? {c : Char} {source : Source} {m : Match} {f : Finding}
    (hc : typedefName.groupAvoids c 1 = true) (hf : typedefAt? source m = some f) : f.NameAvoids c := by
  unfold typedefAt? at hf
  simp only [Option.bind_eq_bind, Option.bind_eq_some_iff] at hf
  obtain ⟨openBrace, -, hf⟩ := hf
  split at hf
  · rw [Option.bind_eq_some_iff] at hf
    obtain ⟨rest, -, hf⟩ := hf
    split at hf
    · rename_i named hnamed
      split at hf
      · rename_i group hgroup
        rw [Option.bind_eq_some_iff] at hf
        obtain ⟨name, hslice, hf⟩ := hf
        cases hf
        obtain ⟨l', r', hspan, hreads⟩ := reads_of_matchStart? hnamed
        have hfinds : typedefName.Finds rest named := ⟨[], rest, l', r', rfl, hspan, hreads⟩
        intro h hh
        cases hh
        exact hfinds.not_mem_group (by decide) hc hgroup hslice
      · cases hf
        exact Finding.nameAvoids_none c false
    · cases hf
      exact Finding.nameAvoids_none c false
  · cases hf
    exact Finding.nameAvoids_none c true

/-- The names of functions, records and typedefs hold no character that the patterns keep out of them. -/
theorem nameAvoids_findings? {c : Char} {source : Source} {findings : List Finding}
    (hfunction : functionHeader.groupAvoids c 1 = true) (hrecord : recordHeader.groupAvoids c 1 = true)
    (htypedef : typedefName.groupAvoids c 1 = true) (h : findings? source = some findings) :
    ∀ f ∈ findings, f.NameAvoids c := by
  unfold findings? at h
  simp only [Option.bind_eq_bind, Option.bind_eq_some_iff] at h
  obtain ⟨functions, hfunctions, records, hrecords, typedefs, htypedefs, h⟩ := h
  cases h
  intro f hf
  rcases List.mem_append.mp hf with hf | hf
  · rcases List.mem_append.mp hf with hf | hf
    · obtain ⟨m, hm, hfound⟩ := exists_of_mem_mapM hfunctions hf
      exact nameAvoids_functionAt? hfunction hm hfound
    · obtain ⟨m, hm, hfound⟩ := exists_of_mem_mapM hrecords hf
      exact nameAvoids_recordAt? hrecord hm hfound
  · obtain ⟨m, -, hfound⟩ := exists_of_mem_mapM htypedefs hf
    exact nameAvoids_typedefAt? htypedef hfound

end CFamily

namespace Python

open Pattern

theorem nameAvoids_blockAt? {c : Char} {source : Source} {p : Pattern} {kind : SymbolKind} {m : Match} {f : Finding}
    (hp : p.grouped = true) (hc : p.groupAvoids c 1 = true) (hm : m ∈ p.findAll source.code)
    (hf : blockAt? source kind m = some f) : f.NameAvoids c := by
  unfold blockAt? at hf
  cases hgroup : m.group? 1 with
  | none =>
    rw [hgroup] at hf
    cases hf
    exact Finding.nameAvoids_none c false
  | some group =>
    simp only [hgroup] at hf
    split at hf
    · simp only [Option.bind_eq_bind, Option.bind_eq_some_iff] at hf
      obtain ⟨last, -, colon, -, hf⟩ := hf
      split at hf
      · simp only [Option.bind_eq_some_iff] at hf
        obtain ⟨name, hslice, indent, -, hf⟩ := hf
        cases hf
        intro h hh
        cases hh
        exact (finds_of_mem_findAll hm).not_mem_group hp hc hgroup hslice
      · cases hf
        exact Finding.nameAvoids_none c true
    · cases hf
      exact Finding.nameAvoids_none c false

theorem nameAvoids_findings? {c : Char} {source : Source} {findings : List Finding}
    (hfunction : functionHeader.groupAvoids c 1 = true) (hclass : classHeader.groupAvoids c 1 = true)
    (h : findings? source = some findings) : ∀ f ∈ findings, f.NameAvoids c := by
  unfold findings? at h
  simp only [Option.bind_eq_bind, Option.bind_eq_some_iff] at h
  obtain ⟨functions, hfunctions, classes, hclasses, h⟩ := h
  cases h
  intro f hf
  rcases List.mem_append.mp hf with hf | hf
  · obtain ⟨m, hm, hfound⟩ := exists_of_mem_mapM hfunctions hf
    exact nameAvoids_blockAt? (by decide) hfunction hm hfound
  · obtain ⟨m, hm, hfound⟩ := exists_of_mem_mapM hclasses hf
    exact nameAvoids_blockAt? (by decide) hclass hm hfound

end Python

namespace Braces

open Pattern

theorem nameAvoids_definitionAt? {c : Char} {source : Source} {rule : Rule} {m : Match} {f : Finding}
    (hp : rule.header.grouped = true) (hc : rule.header.groupAvoids c 1 = true)
    (hm : m ∈ rule.header.findAll source.code) (hf : definitionAt? source rule m = some f) : f.NameAvoids c := by
  unfold definitionAt? at hf
  cases hgroup : m.group? 1 with
  | none =>
    rw [hgroup] at hf
    cases hf
    exact Finding.nameAvoids_none c false
  | some group =>
    simp only [hgroup, Option.bind_eq_bind, Option.bind_eq_some_iff] at hf
    obtain ⟨name, hslice, words, -, hf⟩ := hf
    have hname := (finds_of_mem_findAll hm).not_mem_group hp hc hgroup hslice
    split at hf
    · cases hf
      exact Finding.nameAvoids_none c false
    · simp only [Option.bind_eq_some_iff] at hf
      obtain ⟨last, -, endsOpen, -, hf⟩ := hf
      split at hf
      · cases hf
        intro h hh
        cases hh
        exact hname
      · split_ifs at hf
        · cases hf
          exact Finding.nameAvoids_none c false
        · cases hf
          intro h hh
          cases hh
          exact hname

theorem nameAvoids_findings? {c : Char} {source : Source} {findings : List Finding}
    (hrules : ∀ rule ∈ rules, rule.header.groupAvoids c 1 = true) (h : findings? source = some findings) :
    ∀ f ∈ findings, f.NameAvoids c := by
  unfold findings? at h
  simp only [Option.bind_eq_bind, Option.bind_eq_some_iff] at h
  obtain ⟨found, hfound, h⟩ := h
  cases h
  intro f hf
  obtain ⟨fs, hfs, hf⟩ := List.mem_flatten.mp hf
  obtain ⟨rule, hrule, hmatches⟩ := exists_of_mem_mapM hfound hfs
  obtain ⟨m, hm, hf⟩ := exists_of_mem_mapM hmatches hf
  exact nameAvoids_definitionAt? (rules_headers rule hrule).2.2.1 (hrules rule hrule) hm hf

end Braces

/-! ### The names of symbols -/

namespace Extraction

/-- **No name holds a NUL**, whatever the source holds. -/
theorem nul_not_mem_name {source : Source} {s : Symbol} (hs : s ∈ (ofSource source).symbols) :
    '\x00' ∉ s.name.toList := by
  obtain ⟨h, hheads⟩ := exists_heads hs
  obtain ⟨findings, hfindings, hmem⟩ := hheads.found
  obtain ⟨f, hf, hheader⟩ := List.mem_filterMap.mp hmem
  have hall : ∀ f ∈ findings, f.NameAvoids '\x00' := by
    cases hfamily : source.language.family with
    | cFamily =>
      rw [hfamily] at hfindings
      exact CFamily.nameAvoids_findings? (by decide) (by decide) (by decide) hfindings
    | python =>
      rw [hfamily] at hfindings
      exact Python.nameAvoids_findings? (by decide) (by decide) hfindings
    | generic =>
      rw [hfamily] at hfindings
      exact Braces.nameAvoids_findings? (by decide) hfindings
  obtain ⟨signature, body, heq⟩ := Header.symbol?_eq hheads.places.heads hheads.places.boundary
  cases heq.symm.trans hheads.symbol
  show '\x00' ∉ (String.ofList h.name).toList
  rw [String.toList_ofList]
  exact hall f hf h hheader

end Extraction

end CodeAtlas
