import CodeAtlas.Index
import CodeAtlas.Proofs.MergedSources
import Mathlib.Algebra.GroupWithZero.Nat

/-!
# The manifest of a scan balances

A scan counts in three places: the failures of the walk before any file is read, each file as it is read, and
the symbols of the merged table at the end. This file ties the counts together, for every discovery and whatever
comes of reading its files.

* `DiscoveredFile.sourceOf`: a file by what the access to its bytes has given;
* `Manifest.Records`, `Scan.records_foldl`: what one result adds to a manifest, and what a list of results adds;
* `Discovery.Balances`: the books of a scan;
* `scan_balances`: they balance, and a file that cannot be read leaves the table as it is without that file.
-/

namespace CodeAtlas

/-! ### What comes of reading the files -/

/-- What the access to the bytes of each file gives. -/
abbrev FileContents := DiscoveredFile → Except AccessError ByteArray

/-- The source of a file, or why there is none. -/
def DiscoveredFile.sourceOf (file : DiscoveredFile) :
    Except AccessError ByteArray → Except ReadError Source
  | .error cause => .error (.access file.path cause)
  | .ok content =>
    match String.fromUTF8? content with
    | some text => .ok (.ofText file.key file.language text.toList)
    | none => .error (.decode file.path)

theorem FileSystem.readSource_eq (fs : FileSystem) :
    fs.readSource = fun file => file.sourceOf (fs.read file.path) := by
  funext file
  rw [readSource]
  cases fs.read file.path <;> rfl

theorem DiscoveredFile.key_of_sourceOf {file : DiscoveredFile} {content : Except AccessError ByteArray}
    {source : Source} (h : file.sourceOf content = .ok source) : source.key = file.key := by
  cases content with
  | error cause => cases h
  | ok content =>
    rw [sourceOf] at h
    split at h
    · cases h
      rfl
    · cases h

/-- The entry of the manifest for a file that could not be read. -/
def DiscoveredFile.failure? {α : Type} (file : DiscoveredFile) : Except ReadError α → Option ScanFailure
  | .ok _ => none
  | .error e => some ⟨file.key, e.message⟩

namespace Discovery

variable (d : Discovery) (contents : FileContents)

/-- The files that can be read. -/
def readable : List DiscoveredFile :=
  d.files.filter fun file => (file.sourceOf (contents file)).isOk

/-- The sources of the files that can be read. -/
def sources : List Source :=
  d.files.filterMap fun file => (file.sourceOf (contents file)).toOption

/-- The failures to read a file, in the order of the files. -/
def readFailures : List ScanFailure :=
  d.files.filterMap fun file => file.failure? (file.sourceOf (contents file))

/-- The discovery without the files that cannot be read. -/
def withoutUnreadable : Discovery :=
  { d with files := d.readable contents }

/-- The files stand in the order of their keys. -/
def InKeyOrder : Prop :=
  d.files.Pairwise fun a b => a.key ≤ b.key

end Discovery

/-- The scan of some files with the given contents. -/
def Scan.ofContents (root time : String) (d : Discovery) (contents : FileContents) : Scan :=
  .ofDiscovery root time d fun file => file.sourceOf (contents file)

/-! ### What is recorded in a manifest -/

/-- The sum of the numbers in a dictionary. -/
def Dict.total (d : Dict Nat) : Nat :=
  (d.toList.map Prod.snd).sum

theorem Dict.nodup_toList {β : Type} (d : Dict β) : d.toList.Nodup := by
  refine Std.ExtTreeMap.distinct_keys_toList.imp ?_
  intro a b hab heq
  rw [heq] at hab
  exact hab Std.ReflCmp.compare_self

/-- The entries of a dictionary after an insertion, in some order. -/
theorem Dict.toList_insert_perm {β : Type} (d : Dict β) (key : String) (value : β) :
    (d.insert key value).toList.Perm ((key, value) :: d.toList.filter (·.1 != key)) := by
  have hfresh : (key, value) ∉ d.toList.filter (·.1 != key) := by simp
  refine (List.perm_ext_iff_of_nodup (nodup_toList _)
    (List.nodup_cons.mpr ⟨hfresh, (nodup_toList d).filter _⟩)).mpr ?_
  intro entry
  obtain ⟨k, v⟩ := entry
  simp only [Std.ExtTreeMap.mem_toList_iff_getElem?_eq_some, Std.ExtTreeMap.getElem?_insert,
    Std.compare_eq_iff_eq, List.mem_cons, List.mem_filter, Prod.mk.injEq, bne_iff_ne]
  by_cases hk : key = k
  · subst hk
    simp [eq_comm]
  · simp [hk, Ne.symm hk]

/-- The entry under a key and the entries under other keys make up the total. -/
theorem Dict.total_eq (d : Dict Nat) (key : String) :
    d.total = d.getD key 0 + ((d.toList.filter (·.1 != key)).map Prod.snd).sum := by
  cases hkey : d[key]? with
  | none =>
    have hall : d.toList.filter (·.1 != key) = d.toList := by
      refine List.filter_eq_self.mpr ?_
      intro entry hentry
      obtain ⟨k, v⟩ := entry
      rw [Std.ExtTreeMap.mem_toList_iff_getElem?_eq_some] at hentry
      simp only [bne_iff_ne, ne_eq]
      intro hk
      rw [hk, hkey] at hentry
      cases hentry
    rw [hall, Std.ExtTreeMap.getD_eq_getD_getElem?, hkey, Option.getD_none, Nat.zero_add]
    rfl
  | some n =>
    -- the dictionary does not change if the entry is inserted again
    have hsame : d.insert key n = d := by
      apply Std.ExtTreeMap.ext_getElem?
      intro k
      rw [Std.ExtTreeMap.getElem?_insert]
      split
      · rename_i hk
        rw [← Std.compare_eq_iff_eq.mp hk, hkey]
      · rfl
    have hperm := (d.toList_insert_perm key n).map Prod.snd
    rw [hsame] at hperm
    rw [Std.ExtTreeMap.getD_eq_getD_getElem?, hkey, total, hperm.sum_nat]
    rfl

/-- One more under a key is one more in total. -/
theorem Dict.total_increment (d : Dict Nat) (key : String) :
    total (d.insert key (d.getD key 0 + 1)) = d.total + 1 := by
  rw [total, ((d.toList_insert_perm key _).map Prod.snd).sum_nat, d.total_eq key, List.map_cons, List.sum_cons]
  omega

/-- The manifest `m'` is `m` with some results recorded in it. -/
structure Manifest.Records (m : Manifest) (results : List ReadResult) (m' : Manifest) : Prop where
  considered : m'.filesConsidered = m.filesConsidered
  indexed : m'.filesIndexed = m.filesIndexed + (results.filter (·.2.isOk)).length
  total : m'.perExtension.total = m.perExtension.total + (results.filter (·.2.isOk)).length
  perExtension : ∀ extension, m'.perExtension.getD ("." ++ extension) 0
    = m.perExtension.getD ("." ++ extension) 0
      + (results.filter (·.2.isOk)).countP (·.1.extension == extension)
  unterminated : m'.unterminated
    = m.unterminated + ((results.filterMap (·.2.toOption)).map Fragment.unterminated).sum
  errors : m'.errors = m.errors ++ results.filterMap fun result => result.1.failure? result.2
  errorCount : m'.errorCount + m.errors.length = m.errorCount + m'.errors.length

namespace Scan

theorem records_ok (m : Manifest) (file : DiscoveredFile) (fragment : Fragment) :
    m.Records [(file, .ok fragment)] (recordResult m (file, .ok fragment)) := by
  refine ⟨rfl, rfl, ?_, ?_, ?_, ?_, rfl⟩
  · exact m.perExtension.total_increment _
  · intro extension
    show (m.perExtension.insert ("." ++ file.extension) _).getD ("." ++ extension) 0 = _
    rw [Std.ExtTreeMap.getD_insert]
    by_cases h : file.extension = extension
    · subst h
      simp [Except.isOk, Except.toBool]
    · simp [Except.isOk, Except.toBool, h]
  · simp [recordResult, Manifest.recordIndexed, Except.toOption]
  · simp [recordResult, Manifest.recordIndexed, DiscoveredFile.failure?]

theorem records_error (m : Manifest) (file : DiscoveredFile) (e : ReadError) :
    m.Records [(file, .error e)] (recordResult m (file, .error e)) := by
  refine ⟨rfl, rfl, rfl, fun _ => rfl, ?_, ?_, ?_⟩
  · simp [recordResult, Manifest.recordFailure, Except.toOption]
  · simp [recordResult, Manifest.recordFailure, DiscoveredFile.failure?]
  · show m.errorCount + 1 + m.errors.length = m.errorCount + (m.errors ++ _).length
    simp
    omega

theorem records_recordResult (m : Manifest) (result : ReadResult) :
    m.Records [result] (recordResult m result) := by
  obtain ⟨file, read⟩ := result
  cases read with
  | ok fragment => exact records_ok m file fragment
  | error e => exact records_error m file e

end Scan

/-- Results that are recorded one part after the other. -/
theorem Manifest.Records.append {m m' m'' : Manifest} {first second : List ReadResult}
    (h : m.Records first m') (h' : m'.Records second m'') : m.Records (first ++ second) m'' := by
  refine ⟨h'.considered.trans h.considered, ?_, ?_, ?_, ?_, ?_, ?_⟩
  · rw [h'.indexed, h.indexed]
    simp [Nat.add_assoc]
  · rw [h'.total, h.total]
    simp [Nat.add_assoc]
  · intro extension
    rw [h'.perExtension, h.perExtension]
    simp [Nat.add_assoc]
  · rw [h'.unterminated, h.unterminated]
    simp [Nat.add_assoc]
  · rw [h'.errors, h.errors]
    simp
  · have hfirst := h.errorCount
    have hsecond := h'.errorCount
    omega

/-- **Recording some results** adds what each of them adds. -/
theorem Scan.records_foldl (results : List ReadResult) :
    ∀ m : Manifest, m.Records results (results.foldl recordResult m) := by
  induction results with
  | nil => intro m; exact ⟨rfl, rfl, rfl, fun _ => rfl, rfl, (List.append_nil _).symm, rfl⟩
  | cons result rest ih =>
    intro m
    exact (records_recordResult m result).append (ih (recordResult m result))

/-! ### The manifest of a scan -/

namespace Scan

/-- The failures of the walk are recorded first. -/
theorem foldl_recordFailure (failures : List ScanFailure) :
    ∀ m : Manifest, failures.foldl (fun m f => m.recordFailure f.file f.reason) m
      = { m with errorCount := m.errorCount + failures.length, errors := m.errors ++ failures } := by
  induction failures with
  | nil => intro m; simp
  | cons f rest ih =>
    intro m
    rw [List.foldl_cons, ih]
    simp [Manifest.recordFailure, Nat.add_assoc, Nat.add_comm 1]

variable (root time : String) (d : Discovery) (contents : FileContents)

theorem filter_results :
    (ofContents root time d contents).results.filter (·.2.isOk)
      = (d.readable contents).map fun file =>
          (file, (file.sourceOf (contents file)).map Fragment.ofSource) := by
  show (d.files.map _).filter _ = (d.files.filter _).map _
  rw [List.filter_map]
  congr 2
  funext file
  show ((file.sourceOf (contents file)).map Fragment.ofSource).isOk = _
  cases file.sourceOf (contents file) <;> rfl

theorem fragments_ofContents :
    (ofContents root time d contents).results.filterMap (·.2.toOption)
      = (d.sources contents).map Fragment.ofSource := by
  show (d.files.map _).filterMap _ = (d.files.filterMap _).map _
  rw [List.filterMap_map, List.map_filterMap]
  congr 1
  funext file
  show ((file.sourceOf (contents file)).map Fragment.ofSource).toOption = _
  cases file.sourceOf (contents file) <;> rfl

theorem failures_results :
    ((ofContents root time d contents).results.filterMap fun result => result.1.failure? result.2)
      = d.readFailures contents := by
  show (d.files.map _).filterMap _ = d.files.filterMap _
  rw [List.filterMap_map]
  congr 1
  funext file
  show file.failure? ((file.sourceOf (contents file)).map Fragment.ofSource) = _
  cases file.sourceOf (contents file) <;> rfl

/-- What a scan has recorded when all files are read. -/
theorem records_ofContents :
    Manifest.Records
      { root := root, filesConsidered := d.files.length, errorCount := d.failures.length,
        errors := d.failures, scannedAt := time }
      (ofContents root time d contents).results
      ((ofContents root time d contents).results.foldl recordResult
        (ofContents root time d contents).startManifest) := by
  have hstart : (ofContents root time d contents).startManifest
      = { root := root, filesConsidered := d.files.length, errorCount := d.failures.length,
          errors := d.failures, scannedAt := time } := by
    show d.failures.foldl _ _ = _
    rw [foldl_recordFailure]
    simp [ofContents, ofDiscovery]
  rw [← hstart]
  exact records_foldl _ _

theorem table_ofContents :
    (ofContents root time d contents).table = .ofSources (d.sources contents) :=
  congrArg SymbolTable.ofFragments (fragments_ofContents root time d contents)

end Scan

namespace Discovery

variable (d : Discovery) (contents : FileContents)

theorem length_files :
    d.files.length = (d.readable contents).length + (d.readFailures contents).length := by
  rw [readable, readFailures]
  induction d.files with
  | nil => rfl
  | cons file rest ih =>
    rw [List.length_cons, ih, List.filter_cons, List.filterMap_cons]
    cases file.sourceOf (contents file) with
    | ok source => simp [Except.isOk, Except.toBool, DiscoveredFile.failure?, Nat.add_right_comm]
    | error e => simp [Except.isOk, Except.toBool, DiscoveredFile.failure?, Nat.add_assoc]

theorem sources_withoutUnreadable : (d.withoutUnreadable contents).sources contents = d.sources contents := by
  show (d.files.filter _).filterMap _ = d.files.filterMap _
  rw [List.filterMap_filter]
  congr 1
  funext file
  cases file.sourceOf (contents file) <;> rfl

theorem map_key_sources : (d.sources contents).map Source.key = (d.readable contents).map DiscoveredFile.key := by
  rw [sources, readable]
  induction d.files with
  | nil => rfl
  | cons file rest ih =>
    rw [List.filterMap_cons, List.filter_cons]
    cases hread : file.sourceOf (contents file) with
    | ok source =>
      show source.key :: _ = file.key :: _
      rw [ih, DiscoveredFile.key_of_sourceOf hread]
    | error e => exact ih

/-- The failures to read files in the order of their keys are in that order. -/
theorem readFailures_pairwise (hkeys : (d.files.map DiscoveredFile.key).Nodup) (horder : d.InKeyOrder) :
    (d.readFailures contents).Pairwise fun a b => a.file < b.file := by
  have hstrict : d.files.Pairwise fun a b => a.key < b.key := by
    refine (horder.and (List.pairwise_map.mp hkeys)).imp ?_
    intro a b hab
    exact Std.lt_of_le_of_ne hab.1 hab.2
  have hfile : ∀ {file : DiscoveredFile} {failure : ScanFailure},
      file.failure? (file.sourceOf (contents file)) = some failure → failure.file = file.key := by
    intro file failure h
    cases hread : file.sourceOf (contents file) with
    | ok source => simp [hread, DiscoveredFile.failure?] at h
    | error e =>
      rw [hread] at h
      cases h
      rfl
  rw [readFailures, List.pairwise_filterMap]
  refine hstrict.imp ?_
  intro a b hab failure hfailure failure' hfailure'
  rw [hfile hfailure, hfile hfailure']
  exact hab

end Discovery

/-- The files of a table of sources under keys of their own are those keys. -/
theorem SymbolTable.files_ofSources {sources : List Source} (hkeys : (sources.map Source.key).Nodup) :
    (ofSources sources).files.Perm (sources.map Source.key) := by
  have hnodup : (ofSources sources).files.Nodup := by
    refine Std.ExtTreeMap.distinct_keys.imp ?_
    intro a b hab heq
    rw [heq] at hab
    exact hab Std.ReflCmp.compare_self
  refine (List.perm_ext_iff_of_nodup hnodup hkeys).mpr ?_
  intro k
  rw [files, Std.ExtTreeMap.mem_keys, sources_ofSources,
    mem_foldl_insert Source.key fun source => source]
  simp

/-- Every symbol is of one of the two kinds. -/
theorem SymbolTable.size_eq_countKind (table : SymbolTable) :
    table.size = table.functionCount + table.structCount := by
  rw [size, functionCount, structCount, countKind, countKind]
  induction table.symbols with
  | nil => rfl
  | cons s rest ih =>
    rw [List.length_cons, ih, List.countP_cons, List.countP_cons]
    cases s.kind <;> simp <;> omega

/-- The files of every discovery stand in the order of their keys. -/
theorem FileSystem.discover_inKeyOrder (fs : FileSystem) (config : Config) (root : String) :
    (fs.discover config root).InKeyOrder := by
  rw [discover, Discovery.InKeyOrder]
  split
  · exact List.Pairwise.nil
  · split
    · exact List.Pairwise.nil
    · refine (sortBy_pairwise ?_ ?_ _).imp ?_
      · intro a b
        simpa using String.le_total a.key b.key
      · intro a b c hab hbc
        simp only [decide_eq_true_eq] at *
        exact String.le_trans hab hbc
      · intro a b hab
        simpa using hab

/-! ### The books balance -/

/-- The books of a scan balance: what the table and the manifest hold is what came of the walk and of reading
the files. -/
structure Discovery.Balances (d : Discovery) (contents : FileContents) (o : ScanOutcome) : Prop where
  considered : o.manifest.filesConsidered = d.files.length
  /-- Every file was read or could not be read. -/
  indexed : o.manifest.filesConsidered = o.manifest.filesIndexed + (d.readFailures contents).length
  /-- The failures of the walk come first. -/
  errors : o.manifest.errors = d.failures ++ d.readFailures contents
  errorCount : o.manifest.errorCount = o.manifest.errors.length
  ordered : d.InKeyOrder → (d.readFailures contents).Pairwise fun a b => a.file < b.file
  total : o.manifest.perExtension.total = o.manifest.filesIndexed
  perExtension : ∀ extension, o.manifest.perExtension.getD ("." ++ extension) 0
    = (d.readable contents).countP (·.extension == extension)
  symbolCount : o.manifest.symbolCount = o.table.size
  kinds : o.manifest.functionCount = o.table.functionCount ∧ o.manifest.structCount = o.table.structCount ∧
    o.manifest.symbolCount = o.manifest.functionCount + o.manifest.structCount
  unterminated : o.manifest.unterminated
    = ((d.sources contents).map fun source => (Extraction.ofSource source).unterminated).sum
  files : o.table.files.Perm ((d.readable contents).map DiscoveredFile.key)
  /-- A file that cannot be read leaves no trace in the table. -/
  table : ∀ root time, o.table = (Scan.ofContents root time (d.withoutUnreadable contents) contents).outcome.table

namespace Scan

variable (root time : String) (d : Discovery) (contents : FileContents)

theorem filesIndexed_ofContents :
    (ofContents root time d contents).outcome.manifest.filesIndexed = (d.readable contents).length := by
  refine (records_ofContents root time d contents).indexed.trans ?_
  rw [filter_results, List.length_map]
  exact Nat.zero_add _

theorem total_ofContents :
    (ofContents root time d contents).outcome.manifest.perExtension.total = (d.readable contents).length := by
  refine (records_ofContents root time d contents).total.trans ?_
  rw [filter_results, List.length_map]
  exact Nat.zero_add _

theorem perExtension_ofContents (extension : String) :
    (ofContents root time d contents).outcome.manifest.perExtension.getD ("." ++ extension) 0
      = (d.readable contents).countP (·.extension == extension) := by
  refine ((records_ofContents root time d contents).perExtension extension).trans ?_
  rw [filter_results, List.countP_map]
  simp [Function.comp_def]

theorem unterminated_ofContents :
    (ofContents root time d contents).outcome.manifest.unterminated
      = ((d.sources contents).map fun source => (Extraction.ofSource source).unterminated).sum := by
  refine (records_ofContents root time d contents).unterminated.trans ?_
  rw [fragments_ofContents, List.map_map, Nat.zero_add]
  rfl

/-- The table holds the files that were read. -/
theorem files_ofContents (hkeys : (d.files.map DiscoveredFile.key).Nodup) :
    (ofContents root time d contents).table.files.Perm ((d.readable contents).map DiscoveredFile.key) := by
  rw [table_ofContents, ← d.map_key_sources contents]
  refine SymbolTable.files_ofSources ?_
  rw [d.map_key_sources contents]
  exact hkeys.sublist (List.filter_sublist.map _)

end Scan

/-- Every scan of a file system is the scan of a discovery, with its files in the order of their keys. -/
theorem FileSystem.exists_ofContents {fs : FileSystem} {config : Config} {time root : String} {found : LoggedOutcome}
    (h : fs.scan config time root = .ok found) :
    ∃ place, (fs.discover config place).InKeyOrder ∧
      found.outcome = (Scan.ofContents place time (fs.discover config place) fun file =>
        fs.read file.path).outcome := by
  rw [scan] at h
  cases hplace : fs.canonicalRoot root with
  | error e =>
    rw [hplace] at h
    cases h
  | ok place =>
    rw [hplace] at h
    cases h
    refine ⟨place, fs.discover_inKeyOrder config place, ?_⟩
    rw [Scan.ofContents, fs.readSource_eq]

/-- **The manifest of a scan balances.** For every discovery of files under keys of their own, and whatever the
access to each file gives, the counts of the manifest agree with the files, the failures and the table. A scan of a
file system is the scan of a discovery with its files in the order of their keys. -/
theorem scan_balances (root time : String) (d : Discovery) (contents : FileContents)
    (hkeys : (d.files.map DiscoveredFile.key).Nodup) :
    d.Balances contents (Scan.ofContents root time d contents).outcome ∧
      ∀ (fs : FileSystem) (config : Config) (found : LoggedOutcome), fs.scan config time root = .ok found →
        ∃ place, (fs.discover config place).InKeyOrder ∧
          found.outcome = (Scan.ofContents place time (fs.discover config place) fun file =>
            fs.read file.path).outcome := by
  have hrecords := Scan.records_ofContents root time d contents
  have hindexed := Scan.filesIndexed_ofContents root time d contents
  refine ⟨?_, fun fs config found => FileSystem.exists_ofContents⟩
  exact
    { considered := hrecords.considered
      indexed := by
        rw [hindexed, ← d.length_files contents]
        exact hrecords.considered
      errors := by
        rw [← Scan.failures_results root time d contents]
        exact hrecords.errors
      errorCount := Nat.add_left_cancel ((Nat.add_comm _ _).trans hrecords.errorCount)
      ordered := d.readFailures_pairwise contents hkeys
      total := (Scan.total_ofContents root time d contents).trans hindexed.symm
      perExtension := Scan.perExtension_ofContents root time d contents
      symbolCount := rfl
      kinds := ⟨rfl, rfl, SymbolTable.size_eq_countKind _⟩
      unterminated := Scan.unterminated_ofContents root time d contents
      files := Scan.files_ofContents root time d contents hkeys
      table := by
        intro root' time'
        show (Scan.ofContents root time d contents).table = (Scan.ofContents root' time' _ contents).table
        rw [Scan.table_ofContents, Scan.table_ofContents, d.sources_withoutUnreadable contents] }

/-- A walk that has skipped a directory and found three files, of which the first can be read. -/
def threeFound : Discovery where
  files := [⟨"/w/a.c", "a.c", "c", .c⟩, ⟨"/w/b.c", "b.c", "c", .c⟩, ⟨"/w/c.py", "c.py", "py", .python⟩]
  failures := [⟨"locked", "Permission denied"⟩]

/-- The first of the files holds a function, the second is gone, and the third is no text. -/
def threeFound.contents : FileContents := fun file =>
  if file.key = "a.c" then .ok "void f() { }\n".toUTF8
  else if file.key = "b.c" then .error .notFound
  else .ok ⟨#[0xff]⟩

/-- The scan of the three files balances. -/
theorem threeFound_balances :
    (threeFound.files.map DiscoveredFile.key).Nodup ∧
      threeFound.Balances threeFound.contents (Scan.ofContents "/w" "now" threeFound threeFound.contents).outcome :=
  ⟨by decide, (scan_balances "/w" "now" threeFound threeFound.contents (by decide)).1⟩

end CodeAtlas
