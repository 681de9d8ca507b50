import CodeAtlas.Proofs.MergedSources
import CodeAtlas.Proofs.SymbolNames
import Mathlib.Algebra.Group.Nat.Defs

/-!
# What can be read back from the bytes of a fingerprint

The fingerprint of a table is a digest of one sequence of bytes: the symbols, one after another, and then the key and
the content hash of each source. A zero ends the file and the name of a symbol, and its other parts are told apart by
their first byte or by their length. Nothing ends the key of a source. This file shows what that comes to: the symbols
can be read back, and the sources can too unless a key runs into the hash of another.

* `SymbolTable.symbolBytes_append_inj`, `SymbolTable.flatMap_symbolBytes_inj`: the symbols can be read back;
* `SymbolTable.RunsInto`, `SymbolTable.eq_iff_not_runsInto`: when the sources can;
* `fingerprint_bytes_unambiguous_iff`: what two tables with the same bytes have in common.
-/

namespace CodeAtlas

namespace Digest

/-! ### Numbers and digests -/

theorem length_littleEndian (n count : Nat) : (littleEndian n count).length = count := by
  induction count generalizing n with
  | zero => rfl
  | succ count ih => rw [littleEndian, List.length_cons, ih]

theorem littleEndian_injective {n n' count : Nat} (hn : n < 256 ^ count) (hn' : n' < 256 ^ count)
    (h : littleEndian n count = littleEndian n' count) : n = n' := by
  induction count generalizing n n' with
  | zero => omega
  | succ count ih =>
    rw [littleEndian, littleEndian, List.cons.injEq] at h
    have hlow : n % 256 = n' % 256 := by
      have hbyte := congrArg UInt8.toNat h.1
      rw [UInt8.toNat_ofNat', UInt8.toNat_ofNat'] at hbyte
      omega
    have hhigh : n / 256 = n' / 256 := by
      rw [Nat.pow_succ] at hn hn'
      exact ih (Nat.div_lt_of_lt_mul (by omega)) (Nat.div_lt_of_lt_mul (by omega)) h.2
    omega

theorem length_sha256 (message : List UInt8) : (sha256 message).length = 32 := by
  simp [sha256, State.words, bigEndian, length_littleEndian]

/-- A digit is one byte, and not a zero. -/
theorem utf8EncodeChar_hexDigit : ∀ n < 16,
    (String.utf8EncodeChar (hexDigit n)).length = 1 ∧ 0 ∉ String.utf8EncodeChar (hexDigit n) := by
  decide

theorem bytes_hex (content : List UInt8) :
    (Text.bytes (hex content).toList).length = 2 * content.length ∧ 0 ∉ Text.bytes (hex content).toList := by
  rw [hex, String.toList_ofList]
  induction content with
  | nil => simp [Text.bytes]
  | cons b rest ih =>
    obtain ⟨hhigh, hhigh'⟩ := utf8EncodeChar_hexDigit (b.toNat / 16) (by have := b.toNat_lt; omega)
    obtain ⟨hlow, hlow'⟩ := utf8EncodeChar_hexDigit (b.toNat % 16) (by omega)
    rw [List.flatMap_cons, Text.bytes_append, Text.bytes_cons, Text.bytes_cons]
    simp only [List.length_append, List.mem_append, hhigh, hlow, ih.1, hhigh', hlow', ih.2]
    simp [Text.bytes]
    omega

end Digest

/-- A content hash is sixty-four bytes, none of them a zero. -/
theorem Source.bytes_contentHash (source : Source) :
    (Text.bytes source.contentHash.toList).length = 64 ∧ 0 ∉ Text.bytes source.contentHash.toList := by
  obtain ⟨hlength, hzero⟩ := Digest.bytes_hex (Digest.sha256 (String.ofList source.text).toUTF8.toList)
  rw [Digest.length_sha256] at hlength
  exact ⟨hlength, hzero⟩

/-! ### The symbols can be read back -/

/-- The parts of a symbol fit into the bytes of a fingerprint: file and name hold no NUL, and the lines have four
bytes. -/
structure Symbol.Encodable (s : Symbol) : Prop where
  file : '\x00' ∉ s.file.toList
  name : '\x00' ∉ s.name.toList
  startLine : s.startLine < 2 ^ 32
  endLine : s.endLine < 2 ^ 32

namespace SymbolTable

theorem symbolBytes_eq (s : Symbol) :
    symbolBytes s = Text.bytes s.file.toList ++ 0 :: (Text.bytes s.name.toList ++ 0 ::
      (Text.bytes s.kind.code.toList ++ (Digest.littleEndian s.startLine 4 ++ Digest.littleEndian s.endLine 4))) := by
  rw [symbolBytes, Text.toList_toUTF8, Text.toList_toUTF8, Text.toList_toUTF8]
  simp

/-- The kinds differ in the first byte of their codes. -/
theorem kind_bytes_inj {a b : SymbolKind} {rest rest' : List UInt8}
    (h : Text.bytes a.code.toList ++ rest = Text.bytes b.code.toList ++ rest') : a = b ∧ rest = rest' := by
  have hfunction : (Text.bytes SymbolKind.function.code.toList).head? = some 102 := by decide
  have hstruct : (Text.bytes SymbolKind.structOrClass.code.toList).head? = some 115 := by decide
  have hheads : a = b := by
    have hhead := congrArg List.head? h
    rw [List.head?_append, List.head?_append] at hhead
    cases a <;> cases b <;> simp_all
  subst hheads
  exact ⟨rfl, List.append_cancel_left h⟩

/-- The first symbol can be read back from some bytes. -/
theorem symbolBytes_append_inj {s t : Symbol} (hs : s.Encodable) (ht : t.Encodable) {rest rest' : List UInt8}
    (h : symbolBytes s ++ rest = symbolBytes t ++ rest') : s.SameOutline t ∧ rest = rest' := by
  rw [symbolBytes_eq, symbolBytes_eq] at h
  simp only [List.append_assoc, List.cons_append] at h
  obtain ⟨hfile, h⟩ := append_cons_inj_of_not_mem (Text.zero_not_mem_bytes hs.file)
    (Text.zero_not_mem_bytes ht.file) h
  obtain ⟨hname, h⟩ := append_cons_inj_of_not_mem (Text.zero_not_mem_bytes hs.name)
    (Text.zero_not_mem_bytes ht.name) h
  obtain ⟨hkind, h⟩ := kind_bytes_inj h
  obtain ⟨hstart, h⟩ := List.append_inj h (by simp [Digest.length_littleEndian])
  obtain ⟨hend, h⟩ := List.append_inj h (by simp [Digest.length_littleEndian])
  refine ⟨⟨?_, hkind, ?_, ?_, ?_⟩, h⟩
  · exact String.toList_injective (Text.bytes_injective hname)
  · exact String.toList_injective (Text.bytes_injective hfile)
  · exact Digest.littleEndian_injective hs.startLine ht.startLine hstart
  · exact Digest.littleEndian_injective hs.endLine ht.endLine hend

/-- The symbols can be read back from some bytes that end with bytes which are no zeros. -/
theorem flatMap_symbolBytes_inj {symbols : List Symbol} :
    ∀ {symbols' : List Symbol} {rest rest' : List UInt8}, (∀ s ∈ symbols, s.Encodable) →
      (∀ s ∈ symbols', s.Encodable) → 0 ∉ rest → 0 ∉ rest' →
      symbols.flatMap symbolBytes ++ rest = symbols'.flatMap symbolBytes ++ rest' →
      List.Forall₂ Symbol.SameOutline symbols symbols' ∧ rest = rest' := by
  -- where one list has a symbol and the other has none, the zero after its file gives it away
  have hzero : ∀ (s : Symbol) (more : List UInt8), 0 ∈ symbolBytes s ++ more := by
    intro s more
    rw [symbolBytes_eq]
    simp
  induction symbols with
  | nil =>
    intro symbols' rest rest' _ _ hrest _ h
    cases symbols' with
    | nil => exact ⟨.nil, h⟩
    | cons t others =>
      rw [List.flatMap_nil, List.nil_append, List.flatMap_cons, List.append_assoc] at h
      exact absurd (h ▸ hzero t _) hrest
  | cons s symbols ih =>
    intro symbols' rest rest' hsymbols hsymbols' hrest hrest' h
    cases symbols' with
    | nil =>
      rw [List.flatMap_nil, List.nil_append, List.flatMap_cons, List.append_assoc] at h
      exact absurd (h ▸ hzero s _) hrest'
    | cons t others =>
      rw [List.flatMap_cons, List.flatMap_cons, List.append_assoc, List.append_assoc] at h
      obtain ⟨hs, hall⟩ := List.forall_mem_cons.mp hsymbols
      obtain ⟨ht, hall'⟩ := List.forall_mem_cons.mp hsymbols'
      obtain ⟨hst, h⟩ := symbolBytes_append_inj hs ht h
      obtain ⟨hothers, hrests⟩ := ih hall hall' hrest hrest' h
      exact ⟨.cons hst hothers, hrests⟩

/-! ### When the sources can be read back -/

/-- The content hashes of the sources, by their keys. -/
def contentHashes (table : SymbolTable) : Dict String :=
  table.sources.map fun _ source => source.contentHash

/-- The bytes of a key with its content hash. -/
def entryBytes (entry : String × String) : List UInt8 :=
  Text.bytes entry.1.toList ++ Text.bytes entry.2.toList

theorem fingerprintBytes_eq (table : SymbolTable) :
    table.fingerprintBytes = table.symbols.flatMap symbolBytes ++ table.contentHashes.toList.flatMap entryBytes := by
  rw [fingerprintBytes, contentHashes, Std.ExtTreeMap.toList_map, List.flatMap_map]
  congr 2
  funext entry
  show entry.1.toUTF8.toList ++ entry.2.contentHash.toUTF8.toList = _
  rw [Text.toList_toUTF8, Text.toList_toUTF8]
  rfl

/-- A key goes on behind another, with bytes that are a beginning of the hash of the other, or begin with it. -/
def RunsInto (entry entry' : String × String) : Prop :=
  ∃ more, more ≠ [] ∧ Text.bytes entry'.1.toList = Text.bytes entry.1.toList ++ more ∧
    (more <+: Text.bytes entry.2.toList ∨ Text.bytes entry.2.toList <+: more)

theorem not_runsInto_self (entry : String × String) : ¬RunsInto entry entry := by
  intro h
  obtain ⟨more, hne, hkey, -⟩ := h
  exact hne (List.append_right_eq_self.mp hkey.symm)

/-- A key that is no shorter than another, where both begin the same bytes, is the same or runs into its hash. -/
theorem eq_or_runsInto {e e' : String × String} (he : (Text.bytes e.2.toList).length = 64)
    (he' : (Text.bytes e'.2.toList).length = 64) {more rest rest' : List UInt8}
    (hkey : Text.bytes e'.1.toList = Text.bytes e.1.toList ++ more)
    (h : Text.bytes e.2.toList ++ rest = more ++ (Text.bytes e'.2.toList ++ rest')) :
    (e = e' ∧ rest = rest') ∨ RunsInto e e' := by
  by_cases hmore : more = []
  · subst hmore
    rw [List.append_nil] at hkey
    rw [List.nil_append] at h
    obtain ⟨hhash, hrest⟩ := List.append_inj h (by rw [he, he'])
    refine .inl ⟨Prod.ext ?_ ?_, hrest⟩
    · exact String.toList_injective (Text.bytes_injective hkey.symm)
    · exact String.toList_injective (Text.bytes_injective hhash)
  · have hprefix : more <+: Text.bytes e.2.toList ++ rest := h ▸ List.prefix_append _ _
    exact .inr ⟨more, hmore, hkey, List.prefix_or_prefix_of_prefix hprefix (List.prefix_append _ _)⟩

/-- Where two entries begin the same bytes, they are the same or one key runs into the hash of the other. -/
theorem entryBytes_append_inj {e e' : String × String} (he : (Text.bytes e.2.toList).length = 64)
    (he' : (Text.bytes e'.2.toList).length = 64) {rest rest' : List UInt8}
    (h : entryBytes e ++ rest = entryBytes e' ++ rest') :
    (e = e' ∧ rest = rest') ∨ RunsInto e e' ∨ RunsInto e' e := by
  rw [entryBytes, entryBytes, List.append_assoc, List.append_assoc] at h
  rcases List.append_eq_append_iff.mp h with ⟨more, hkey, hrest⟩ | ⟨more, hkey, hrest⟩
  · exact (eq_or_runsInto he he' hkey hrest).imp_right .inl
  · rcases eq_or_runsInto he' he hkey hrest with ⟨heq, hrest⟩ | hruns
    · exact .inl ⟨heq.symm, hrest.symm⟩
    · exact .inr (.inr hruns)

/-- **Two lists of entries with the same bytes are the same** exactly if nowhere a key runs into the hash that stands
at its place in the other list. -/
theorem eq_iff_not_runsInto {entries : List (String × String)} :
    ∀ {entries' : List (String × String)}, (∀ e ∈ entries, (Text.bytes e.2.toList).length = 64) →
      (∀ e ∈ entries', (Text.bytes e.2.toList).length = 64) →
      entries.flatMap entryBytes = entries'.flatMap entryBytes →
      (entries = entries' ↔ ∀ pair ∈ entries.zip entries', ¬RunsInto pair.1 pair.2 ∧ ¬RunsInto pair.2 pair.1) := by
  have hnonempty : ∀ {e : String × String} {more : List UInt8}, (Text.bytes e.2.toList).length = 64 →
      entryBytes e ++ more ≠ [] := by
    intro e more he hnil
    have hlength := congrArg List.length hnil
    rw [entryBytes, List.length_append, List.length_append, he, List.length_nil] at hlength
    omega
  induction entries with
  | nil =>
    intro entries' _ hentries' h
    cases entries' with
    | nil => simp
    | cons e' others' => exact absurd h.symm (hnonempty (hentries' e' List.mem_cons_self))
  | cons e others ih =>
    intro entries' hentries hentries' h
    cases entries' with
    | nil => exact absurd h (hnonempty (hentries e List.mem_cons_self))
    | cons e' others' =>
      obtain ⟨he, hothers⟩ := List.forall_mem_cons.mp hentries
      obtain ⟨he', hothers'⟩ := List.forall_mem_cons.mp hentries'
      rw [List.zip_cons_cons, List.forall_mem_cons]
      rcases entryBytes_append_inj he he' h with ⟨heq, hrest⟩ | hruns
      · subst heq
        rw [List.cons.injEq, ← ih hothers hothers' hrest]
        simp [not_runsInto_self]
      · constructor
        · intro heq
          cases heq
          exact absurd (hruns.elim id id) (not_runsInto_self e)
        · intro hnone
          exact absurd hruns (not_or.mpr hnone.1)

/-! ### Tables with the same bytes -/

theorem exists_extraction_of_mem {sources : List Source} {s : Symbol} (hs : s ∈ (ofSources sources).symbols) :
    ∃ source ∈ sources, s ∈ (Extraction.ofSource source).symbols := by
  have hmem := (mem_sortBy _).mp ((eraseRepsBy_sublist _).subset hs)
  rw [ofSources_symbols_flatMap] at hmem
  exact List.mem_flatMap.mp hmem

theorem encodable_of_mem {sources : List Source}
    (hsources : ∀ source ∈ sources, '\x00' ∉ source.key.toList ∧ source.lineCount < 2 ^ 32) {s : Symbol}
    (hs : s ∈ (ofSources sources).symbols) : s.Encodable := by
  obtain ⟨source, hsource, hmem⟩ := exists_extraction_of_mem hs
  obtain ⟨hkey, hlines⟩ := hsources source hsource
  have hcut := Extraction.cutFrom_of_mem hmem
  have hend := hcut.endLine_le_lineCount
  have hstart := hcut.startLine_le_endLine
  exact ⟨hcut.file ▸ hkey, Extraction.nul_not_mem_name hmem, by omega, by omega⟩

theorem contentHashes_spec {sources : List Source} {entry : String × String}
    (hentry : entry ∈ (ofSources sources).contentHashes.toList) :
    entry.1 ∈ sources.map Source.key ∧ ∃ source : Source, entry.2 = source.contentHash := by
  rw [contentHashes, Std.ExtTreeMap.toList_map] at hentry
  obtain ⟨⟨key, source⟩, hmem, rfl⟩ := List.mem_map.mp hentry
  refine ⟨?_, source, rfl⟩
  rw [Std.ExtTreeMap.mem_toList_iff_getElem?_eq_some, sources_ofSources] at hmem
  have hkey : key ∈ sources.foldl (fun d source => d.insert source.key source) (∅ : Dict Source) := by
    rw [Std.ExtTreeMap.mem_iff_isSome_getElem?, hmem]
    rfl
  rw [mem_foldl_insert Source.key fun source => source] at hkey
  simpa using hkey

/-- Behind the symbols there is no zero. -/
theorem zero_not_mem_entries {sources : List Source} (hkeys : ∀ source ∈ sources, '\x00' ∉ source.key.toList) :
    0 ∉ (ofSources sources).contentHashes.toList.flatMap entryBytes := by
  intro hzero
  obtain ⟨entry, hentry, hzero⟩ := List.mem_flatMap.mp hzero
  obtain ⟨hkey, source, hhash⟩ := contentHashes_spec hentry
  obtain ⟨keyed, hkeyed, hkey⟩ := List.mem_map.mp hkey
  rcases List.mem_append.mp hzero with hzero | hzero
  · exact Text.zero_not_mem_bytes (hkey ▸ hkeys keyed hkeyed) hzero
  · rw [hhash] at hzero
    exact source.bytes_contentHash.2 hzero

end SymbolTable

open SymbolTable in
/-- **The bytes of a fingerprint tell the symbols apart, and the sources unless a key runs into a hash.** Two tables
with the same bytes list the same symbols, of the same kinds and on the same lines. Their sources have the same keys
and content hashes exactly if at no place in the order of the keys the key of one table runs into the hash of the
other. -/
theorem fingerprint_bytes_unambiguous_iff {sources sources' : List Source}
    (hsources : ∀ source ∈ sources, '\x00' ∉ source.key.toList ∧ source.lineCount < 2 ^ 32)
    (hsources' : ∀ source ∈ sources', '\x00' ∉ source.key.toList ∧ source.lineCount < 2 ^ 32)
    (h : (ofSources sources).fingerprintBytes = (ofSources sources').fingerprintBytes) :
    List.Forall₂ Symbol.SameOutline (ofSources sources).symbols (ofSources sources').symbols ∧
      ((ofSources sources).contentHashes = (ofSources sources').contentHashes
        ↔ ∀ pair ∈ (ofSources sources).contentHashes.toList.zip (ofSources sources').contentHashes.toList,
            ¬RunsInto pair.1 pair.2 ∧ ¬RunsInto pair.2 pair.1) := by
  have hhash : ∀ {sources : List Source}, ∀ e ∈ (ofSources sources).contentHashes.toList,
      (Text.bytes e.2.toList).length = 64 := by
    intro sources e he
    obtain ⟨-, source, hsource⟩ := contentHashes_spec he
    rw [hsource]
    exact source.bytes_contentHash.1
  rw [fingerprintBytes_eq, fingerprintBytes_eq] at h
  obtain ⟨hsymbols, hentries⟩ := flatMap_symbolBytes_inj (fun s hs => encodable_of_mem hsources hs)
    (fun s hs => encodable_of_mem hsources' hs) (zero_not_mem_entries fun source hs => (hsources source hs).1)
    (zero_not_mem_entries fun source hs => (hsources' source hs).1) h
  refine ⟨hsymbols, ?_⟩
  rw [← eq_iff_not_runsInto hhash hhash hentries, Std.ExtTreeMap.toList_inj]

/-! ### A key that runs into a hash -/

/-- A C source without a text. -/
def emptySource (key : String) : Source :=
  .ofText key .c []

/-- The content hash of a source without a text. -/
def emptyHash : String :=
  "e3b0c44298fc1c149afbf4c8996fb92427ae41e4649b934ca495991b7852b855"

theorem contentHash_emptySource (key : String) : (emptySource key).contentHash = emptyHash := by
  show (emptySource "a.c").contentHash = emptyHash
  decide +kernel

/-- Two sources without a text. -/
def twoEmpty : List Source :=
  [emptySource "a.c", emptySource "b.c"]

/-- One source without a text, with the two keys and the hash between them for its key. -/
def oneGlued : List Source :=
  [emptySource ("a.c" ++ emptyHash ++ "b.c")]

theorem toList_contentHashes_twoEmpty :
    (SymbolTable.ofSources twoEmpty).contentHashes.toList = [("a.c", emptyHash), ("b.c", emptyHash)] := by
  have hsources : (SymbolTable.ofSources twoEmpty).sources.toList
      = [("a.c", emptySource "a.c"), ("b.c", emptySource "b.c")] := rfl
  rw [SymbolTable.contentHashes, Std.ExtTreeMap.toList_map, hsources]
  simp [contentHash_emptySource]

theorem toList_contentHashes_oneGlued :
    (SymbolTable.ofSources oneGlued).contentHashes.toList = [("a.c" ++ emptyHash ++ "b.c", emptyHash)] := by
  have hsources : (SymbolTable.ofSources oneGlued).sources.toList
      = [("a.c" ++ emptyHash ++ "b.c", emptySource ("a.c" ++ emptyHash ++ "b.c"))] := rfl
  rw [SymbolTable.contentHashes, Std.ExtTreeMap.toList_map, hsources]
  simp [contentHash_emptySource]

theorem symbols_emptySources (keys : List String) :
    (SymbolTable.ofSources (keys.map emptySource)).symbols = [] := by
  rw [List.eq_nil_iff_forall_not_mem]
  intro s hs
  obtain ⟨source, hsource, hmem⟩ := SymbolTable.exists_extraction_of_mem hs
  obtain ⟨key, -, rfl⟩ := List.mem_map.mp hsource
  have hnone : (Extraction.ofSource (emptySource key)).symbols = [] := rfl
  rw [hnone] at hmem
  cases hmem

/-- The two tables have the same bytes. -/
theorem fingerprintBytes_oneGlued :
    (SymbolTable.ofSources twoEmpty).fingerprintBytes = (SymbolTable.ofSources oneGlued).fingerprintBytes := by
  have htwo : (SymbolTable.ofSources twoEmpty).symbols = [] := symbols_emptySources ["a.c", "b.c"]
  have hone : (SymbolTable.ofSources oneGlued).symbols = [] := symbols_emptySources ["a.c" ++ emptyHash ++ "b.c"]
  rw [SymbolTable.fingerprintBytes_eq, SymbolTable.fingerprintBytes_eq, htwo, hone, toList_contentHashes_twoEmpty,
    toList_contentHashes_oneGlued]
  simp only [List.flatMap_cons, List.flatMap_nil, SymbolTable.entryBytes, String.toList_append, Text.bytes_append,
    List.append_assoc, List.append_nil]

theorem contentHashes_twoEmpty_ne :
    (SymbolTable.ofSources twoEmpty).contentHashes ≠ (SymbolTable.ofSources oneGlued).contentHashes := by
  intro heq
  have hlists := congrArg (fun d : Dict String => d.toList.length) heq
  rw [toList_contentHashes_twoEmpty, toList_contentHashes_oneGlued] at hlists
  cases hlists

/-- The two tables list the same symbols, and somewhere a key runs into a hash. -/
theorem oneGlued_unambiguous_iff :
    (∀ source ∈ twoEmpty, '\x00' ∉ source.key.toList ∧ source.lineCount < 2 ^ 32) ∧
    (∀ source ∈ oneGlued, '\x00' ∉ source.key.toList ∧ source.lineCount < 2 ^ 32) ∧
    (SymbolTable.ofSources twoEmpty).fingerprintBytes = (SymbolTable.ofSources oneGlued).fingerprintBytes ∧
    List.Forall₂ Symbol.SameOutline (SymbolTable.ofSources twoEmpty).symbols
      (SymbolTable.ofSources oneGlued).symbols ∧
    ¬∀ pair ∈ (SymbolTable.ofSources twoEmpty).contentHashes.toList.zip
        (SymbolTable.ofSources oneGlued).contentHashes.toList,
      ¬SymbolTable.RunsInto pair.1 pair.2 ∧ ¬SymbolTable.RunsInto pair.2 pair.1 := by
  have htwo : ∀ source ∈ twoEmpty, '\x00' ∉ source.key.toList ∧ source.lineCount < 2 ^ 32 := by decide
  have hone : ∀ source ∈ oneGlued, '\x00' ∉ source.key.toList ∧ source.lineCount < 2 ^ 32 := by decide
  obtain ⟨hsymbols, hiff⟩ := fingerprint_bytes_unambiguous_iff htwo hone fingerprintBytes_oneGlued
  exact ⟨htwo, hone, fingerprintBytes_oneGlued, hsymbols, fun hnone => contentHashes_twoEmpty_ne (hiff.mpr hnone)⟩

/-- Two tables of different sources whose fingerprints are digests of the same bytes. -/
theorem oneGlued_hides_source :
    (∀ source ∈ twoEmpty ++ oneGlued, '\x00' ∉ source.key.toList) ∧
    (SymbolTable.ofSources twoEmpty).fingerprintBytes = (SymbolTable.ofSources oneGlued).fingerprintBytes ∧
    (SymbolTable.ofSources twoEmpty).contentHashes ≠ (SymbolTable.ofSources oneGlued).contentHashes :=
  ⟨by decide, fingerprintBytes_oneGlued, contentHashes_twoEmpty_ne⟩

end CodeAtlas
