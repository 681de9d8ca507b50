import CodeAtlas.Store
import CodeAtlas.Proofs.SymbolRanges

/-!
# A shared store serves the last published index

Clients call a store at the same time. What a call reads off the file system, the key of a root or a whole scan, it
reads before it has the store for itself; what it asks of the store then happens in one step. Between the two parts
other clients are served, and the file system may change at any time. This file shows that all the same the store
holds, under every key, what was last published there.

* `StoreCall.prepare`, `Store.perform`: the two parts of a call;
* `SharedStore.run`: what a list of events makes of a store and its clients;
* `SharedStore.store_run`: the store depends on the order in which requests were performed, and on nothing else;
* `StoreRequest.LastPublished`: what was published last under a key and not removed since;
* `shared_store_serves_last_published`: the store after any events.
-/

namespace CodeAtlas

/-! ### The order of roots -/

namespace Path

/-- The order of components: by their kind, names by their text. -/
def Component.order : Component → Component → Ordering :=
  compareLex (compareOn Component.rank) (compareOn Component.text)

instance : Std.TransCmp Component.order :=
  inferInstanceAs (Std.TransCmp (compareLex _ _))

theorem Component.order_eq (a b : Component) :
    a.order b = (compare a.rank b.rank).then (compare a.text b.text) :=
  rfl

instance : Std.LawfulEqCmp Component.order where
  compare_self := Std.ReflCmp.compare_self
  eq_of_compare := by
    intro a b hab
    rw [Component.order_eq, Ordering.then_eq_eq, Std.compare_eq_iff_eq, Std.compare_eq_iff_eq] at hab
    obtain ⟨hrank, htext⟩ := hab
    cases a <;> cases b <;> simp_all [Component.rank, Component.text]

theorem Component.inOrder_iff (a b : Component) : a.inOrder b = true ↔ (a.order b).isLE = true := by
  have hname : ∀ s t : String, (compare s t).isLE = true ↔ s ≤ t := fun s t =>
    isLE_compareOfLessAndEq String.le_antisymm String.not_le String.le_total
  cases a with
  | name s =>
    cases b with
    | name t => simp [order_eq, inOrder, rank, text, hname]
    | _ => exact Iff.rfl
  | _ => cases b <;> exact Iff.rfl

/-- The order of paths: component by component. -/
def order : List Component → List Component → Ordering :=
  List.compareLex Component.order

instance : Std.TransCmp order :=
  inferInstanceAs (Std.TransCmp (List.compareLex _))

instance : Std.LawfulEqCmp order :=
  inferInstanceAs (Std.LawfulEqCmp (List.compareLex _))

theorem inOrder_iff (p q : List Component) : inOrder p q = true ↔ (order p q).isLE = true := by
  fun_induction inOrder p q with
  | case1 q => simp [order, List.isLE_compareLex_nil_left]
  | case2 => simp [order, List.compareLex_cons_nil]
  | case3 a as b bs hab ih =>
    rw [beq_iff_eq] at hab
    have hself : b.order b = .eq := Std.ReflCmp.compare_self
    show _ ↔ (List.compareLex Component.order (a :: as) (b :: bs)).isLE = true
    rw [ih, List.compareLex_cons_cons, hab, hself]
    rfl
  | case4 a as b bs hab =>
    rw [beq_iff_eq] at hab
    have hne : a.order b ≠ .eq := fun heq => hab (Std.LawfulEqCmp.eq_of_compare heq)
    rw [Component.inOrder_iff, order, List.compareLex_cons_cons]
    cases hcmp : a.order b with
    | eq => exact absurd hcmp hne
    | lt => rfl
    | gt => rfl

end Path

/-! ### What one step does to a store -/

/-- What a client may ask of a store. -/
inductive StoreCall where
  | publish (outcome : ScanOutcome)
  | get (root : String)
  | discard (root : String)
  | roots
  | rescan (time root : String)

/-- What is left of a call when it has read the file system. -/
inductive StoreRequest where
  | publish (outcome : ScanOutcome)
  | find (key : RootKey)
  | remove (key : RootKey)
  | roots

/-- What a client gets back. -/
inductive StoreAnswer where
  | index (found : Option ScanOutcome)
  /-- Whether there was an index to remove. -/
  | removed (present : Bool)
  | roots (keys : List RootKey)

/-- The part of a call that is done before the store is touched. Only a scan can fail. -/
def StoreCall.prepare (fs : FileSystem) (config : Config) : StoreCall → Except RootError StoreRequest
  | publish outcome => .ok (.publish outcome)
  | get root => .ok (.find (fs.storeKey root))
  | discard root => .ok (.remove (fs.storeKey root))
  | roots => .ok .roots
  | rescan time root => (fs.scan config time root).map fun found => .publish found.outcome

/-- A request replaces or removes the index under a key. -/
def StoreRequest.Writes (key : RootKey) : StoreRequest → Prop
  | publish outcome => outcome.key = key
  | remove k => k = key
  | find _ => False
  | roots => False

namespace Store

variable (store : Store)

/-- The store after a request. -/
def perform : StoreRequest → Store
  | .publish outcome => store.publish outcome
  | .remove key => store.remove key
  | .find _ => store
  | .roots => store

/-- The answer to a request. -/
def answer : StoreRequest → StoreAnswer
  | .publish outcome => .index (some outcome)
  | .find key => .index (store.find? key)
  | .remove key => .removed (store.find? key).isSome
  | .roots => .roots store.roots

/-- What a call comes to when nothing happens between its two parts. -/
def call (fs : FileSystem) : StoreCall → Except RootError (StoreAnswer × Store)
  | .publish outcome => .ok (.index (some outcome), store.publish outcome)
  | .get root => .ok (.index (store.get? fs root), store)
  | .discard root => .ok (.removed (store.discard fs root).1, (store.discard fs root).2)
  | .roots => .ok (.roots store.roots, store)
  | .rescan time root => (store.rescan fs time root).map fun (outcome, next) => (.index (some outcome), next)

/-- The two parts of a call make up the whole. -/
theorem call_eq (fs : FileSystem) (c : StoreCall) :
    store.call fs c
      = (c.prepare fs store.config).map fun request => (store.answer request, store.perform request) := by
  cases c with
  | rescan time root =>
    rw [call, rescan, StoreCall.prepare]
    cases fs.scan store.config time root <;> rfl
  | _ => rfl

theorem lookup_cons_eq_ite (entry : RootKey × ScanOutcome) (rest : List (RootKey × ScanOutcome)) (key : RootKey) :
    (entry :: rest).lookup key = if entry.1 = key then some entry.2 else rest.lookup key := by
  rw [List.lookup_cons]
  by_cases h : entry.1 = key
  · simp [h]
  · rw [if_neg h, beq_false_of_ne (Ne.symm h)]

theorem find?_remove (k key : RootKey) :
    (store.remove k).find? key = if k = key then none else store.find? key := by
  rw [find?, find?, remove]
  induction store.entries with
  | nil => simp
  | cons entry rest ih =>
    rw [List.filter_cons]
    by_cases hk : entry.1 = k
    · subst hk
      rw [if_neg (by simp), lookup_cons_eq_ite]
      refine ih.trans ?_
      by_cases h : entry.1 = key <;> simp [h]
    · rw [if_pos (by simpa using hk), lookup_cons_eq_ite, lookup_cons_eq_ite]
      by_cases h : entry.1 = key
      · rw [if_pos h, if_pos h, if_neg (fun hkey => hk (h.trans hkey.symm))]
      · rw [if_neg h, if_neg h]
        exact ih

theorem find?_publish (o : ScanOutcome) (key : RootKey) :
    (store.publish o).find? key = if o.key = key then some o else store.find? key := by
  show List.lookup key ((o.key, o) :: (store.remove o.key).entries) = _
  have hremove := store.find?_remove o.key key
  rw [lookup_cons_eq_ite]
  by_cases h : o.key = key
  · rw [if_pos h, if_pos h]
  · rw [if_neg h] at hremove
    rw [if_neg h, if_neg h]
    exact hremove

/-- What a request makes of the index under a key. -/
theorem find?_perform_eq_some_iff (r : StoreRequest) (key : RootKey) (o : ScanOutcome) :
    (store.perform r).find? key = some o
      ↔ (r = .publish o ∧ o.key = key) ∨ (¬r.Writes key ∧ store.find? key = some o) := by
  cases r with
  | publish o' =>
    rw [perform, find?_publish]
    by_cases h : o'.key = key
    · rw [if_pos h]
      constructor
      · intro heq
        cases heq
        exact .inl ⟨rfl, h⟩
      · intro hcase
        rcases hcase with ⟨hr, -⟩ | ⟨hkept, -⟩
        · cases hr
          rfl
        · exact absurd h hkept
    · rw [if_neg h]
      constructor
      · intro hfound
        exact .inr ⟨h, hfound⟩
      · intro hcase
        rcases hcase with ⟨hr, hkey⟩ | ⟨-, hfound⟩
        · cases hr
          exact absurd hkey h
        · exact hfound
  | remove k =>
    rw [perform, find?_remove]
    by_cases h : k = key <;> simp [h, StoreRequest.Writes]
  | find _ => simp [perform, StoreRequest.Writes]
  | roots => simp [perform, StoreRequest.Writes]

theorem find?_perform_eq_none_iff (r : StoreRequest) (key : RootKey) :
    (store.perform r).find? key = none
      ↔ r = .remove key ∨ (¬r.Writes key ∧ store.find? key = none) := by
  cases r with
  | publish o' =>
    rw [perform, find?_publish]
    by_cases h : o'.key = key <;> simp [h, StoreRequest.Writes]
  | remove k =>
    rw [perform, find?_remove]
    by_cases h : k = key <;> simp [h, StoreRequest.Writes]
  | find _ => simp [perform, StoreRequest.Writes]
  | roots => simp [perform, StoreRequest.Writes]

/-- A request leaves the index under every other key as it is. -/
theorem find?_perform_of_not_writes {r : StoreRequest} {key : RootKey} (h : ¬r.Writes key) :
    (store.perform r).find? key = store.find? key := by
  have hnot : ∀ o, ¬(r = .publish o ∧ o.key = key) := by
    intro o hr
    obtain ⟨rfl, hkey⟩ := hr
    exact h hkey
  apply Option.ext
  intro o
  rw [find?_perform_eq_some_iff]
  simp [h, hnot o]

/-- Every index stands under the key of its root, and no key stands twice. -/
structure WellKeyed : Prop where
  key_eq : ∀ entry ∈ store.entries, entry.1 = Path.components entry.2.manifest.root
  nodup : (store.entries.map Prod.fst).Nodup

variable {store}

theorem WellKeyed.remove (h : store.WellKeyed) (k : RootKey) : (store.remove k).WellKeyed where
  key_eq := fun entry hentry => h.key_eq entry (List.mem_of_mem_filter hentry)
  nodup := h.nodup.sublist (List.filter_sublist.map _)

theorem WellKeyed.perform (h : store.WellKeyed) (r : StoreRequest) : (store.perform r).WellKeyed := by
  cases r with
  | publish o =>
    have hrest := h.remove o.key
    constructor
    · intro entry hentry
      rcases List.mem_cons.mp hentry with hnew | hold
      · rw [hnew]
        rfl
      · exact hrest.key_eq entry hold
    · refine List.nodup_cons.mpr ⟨?_, hrest.nodup⟩
      simp [Store.remove]
  | remove k => exact h.remove k
  | find _ => exact h
  | roots => exact h

/-- The roots of a store are the keys with an index. -/
theorem mem_roots_iff (key : RootKey) : key ∈ store.roots ↔ (store.find? key).isSome := by
  rw [roots, mem_sortBy, find?]
  induction store.entries with
  | nil => simp
  | cons entry rest ih =>
    rw [List.map_cons, List.mem_cons, ih, lookup_cons_eq_ite]
    by_cases h : entry.1 = key
    · simp [h]
    · simp [h, Ne.symm h]

/-- The roots of a store ascend strictly. -/
theorem WellKeyed.roots_pairwise (h : store.WellKeyed) :
    store.roots.Pairwise fun a b => Path.order a b = .lt := by
  refine sortBy_strict Path.inOrder_iff (h.nodup.imp ?_)
  intro a b hne heq
  exact hne (Std.LawfulEqCmp.eq_of_compare heq)

end Store

/-! ### What was published last -/

namespace StoreRequest

/-- An outcome was published under a key, and the index there was neither replaced nor removed since. -/
def LastPublished (record : List StoreRequest) (key : RootKey) (o : ScanOutcome) : Prop :=
  ∃ earlier later, record = earlier ++ publish o :: later ∧ o.key = key ∧ ∀ r ∈ later, ¬r.Writes key

/-- Whatever was published under a key has been removed since. -/
def Unpublished (record : List StoreRequest) (key : RootKey) : Prop :=
  ∀ earlier o later, record = earlier ++ publish o :: later → o.key = key → remove key ∈ later

/-- Where a list with one more element at its end can be cut. -/
theorem concat_eq_append_cons {α : Type} {l l₁ l₂ : List α} {a b : α} (h : l ++ [a] = l₁ ++ b :: l₂) :
    (l₂ = [] ∧ b = a) ∨ ∃ l₃, l₂ = l₃ ++ [a] ∧ l = l₁ ++ b :: l₃ := by
  rcases l₂.eq_nil_or_concat' with hnil | ⟨l₃, last, hlast⟩
  · subst hnil
    exact .inl ⟨rfl, List.head_eq_of_cons_eq (List.append_inj' h rfl).2.symm⟩
  · subst hlast
    rw [← List.cons_append, ← List.append_assoc] at h
    obtain ⟨hl, ha⟩ := List.append_inj' h rfl
    cases ha
    exact .inr ⟨l₃, rfl, hl⟩

theorem lastPublished_concat (record : List StoreRequest) (r : StoreRequest) (key : RootKey) (o : ScanOutcome) :
    LastPublished (record ++ [r]) key o
      ↔ (r = publish o ∧ o.key = key) ∨ (¬r.Writes key ∧ LastPublished record key o) := by
  constructor
  · intro h
    obtain ⟨earlier, later, heq, hkey, hlater⟩ := h
    rcases concat_eq_append_cons heq with ⟨-, hr⟩ | ⟨later', rfl, hrecord⟩
    · exact .inl ⟨hr.symm, hkey⟩
    · refine .inr ⟨hlater r (by simp), earlier, later', hrecord, hkey, ?_⟩
      intro r' hr'
      exact hlater r' (by simp [hr'])
  · intro h
    rcases h with ⟨hr, hkey⟩ | ⟨hr, earlier, later, heq, hkey, hlater⟩
    · exact ⟨record, [], by rw [hr], hkey, by simp⟩
    · refine ⟨earlier, later ++ [r], by simp [heq], hkey, ?_⟩
      intro r' hr'
      rcases List.mem_append.mp hr' with hr' | hr'
      · exact hlater r' hr'
      · rw [List.mem_singleton.mp hr']
        exact hr

theorem unpublished_concat (record : List StoreRequest) (r : StoreRequest) (key : RootKey) :
    Unpublished (record ++ [r]) key ↔ r = remove key ∨ (¬r.Writes key ∧ Unpublished record key) := by
  constructor
  · intro h
    by_cases hremove : r = remove key
    · exact .inl hremove
    · refine .inr ⟨?_, ?_⟩
      · intro hwrites
        cases r with
        | publish o => exact absurd (h record o [] rfl hwrites) List.not_mem_nil
        | remove k => exact hremove (congrArg remove hwrites)
        | find _ => exact hwrites
        | roots => exact hwrites
      · intro earlier o later heq hkey
        have hmem := h earlier o (later ++ [r]) (by simp [heq]) hkey
        rcases List.mem_append.mp hmem with hmem | hmem
        · exact hmem
        · exact absurd (List.mem_singleton.mp hmem).symm hremove
  · intro h earlier o later heq hkey
    rcases concat_eq_append_cons heq with ⟨-, hr⟩ | ⟨later', rfl, hrecord⟩
    · subst hr
      rcases h with h | h
      · cases h
      · exact absurd hkey h.1
    · rcases h with h | h
      · simp [h]
      · exact List.mem_append_left _ (h.2 earlier o later' hrecord hkey)

/-- **The index under a key** after some requests is what was published there last. -/
theorem find?_foldl_perform_eq_some_iff (config : Config) (record : List StoreRequest) (key : RootKey)
    (o : ScanOutcome) :
    (record.foldl Store.perform { config }).find? key = some o ↔ LastPublished record key o := by
  induction record using List.reverseRecOn with
  | nil => simp [Store.find?, LastPublished]
  | append_singleton record r ih =>
    rw [List.foldl_append, List.foldl_cons, List.foldl_nil, Store.find?_perform_eq_some_iff, ih,
      lastPublished_concat]

theorem find?_foldl_perform_eq_none_iff (config : Config) (record : List StoreRequest) (key : RootKey) :
    (record.foldl Store.perform { config }).find? key = none ↔ Unpublished record key := by
  induction record using List.reverseRecOn with
  | nil => simp [Store.find?, Unpublished]
  | append_singleton record r ih =>
    rw [List.foldl_append, List.foldl_cons, List.foldl_nil, Store.find?_perform_eq_none_iff, ih,
      unpublished_concat]

end StoreRequest

/-! ### A store and its clients -/

/-- A store, the file system around it and the clients that call it. -/
structure SharedStore where
  fs : FileSystem
  store : Store
  /-- The request of each client that waits to be served. -/
  waiting : Nat → Option StoreRequest := fun _ => none
  /-- The answers that each client has got, the latest first. -/
  answers : Nat → List StoreAnswer := fun _ => []

/-- What can happen to a store and its clients. -/
inductive StoreEvent where
  /-- The file system becomes another one. -/
  | change (fs : FileSystem)
  /-- A client makes a call and reads the file system for it. -/
  | ask (client : Nat) (call : StoreCall)
  /-- The request of a client is performed. -/
  | serve (client : Nat)

namespace SharedStore

/-- What an event makes of a store and its clients. A client makes one call at a time; a call that fails before
the store is touched is over. -/
def step (s : SharedStore) : StoreEvent → SharedStore
  | .change fs => { s with fs }
  | .ask client call =>
    match s.waiting client, call.prepare s.fs s.store.config with
    | none, .ok request => { s with waiting := Function.update s.waiting client (some request) }
    | _, _ => s
  | .serve client =>
    match s.waiting client with
    | some request =>
      { s with
        store := s.store.perform request
        waiting := Function.update s.waiting client none
        answers := Function.update s.answers client (s.store.answer request :: s.answers client) }
    | none => s

/-- The request that an event performs. -/
def performed? (s : SharedStore) : StoreEvent → Option StoreRequest
  | .serve client => s.waiting client
  | _ => none

/-- A store and its clients after some events. -/
def run (s : SharedStore) (events : List StoreEvent) : SharedStore :=
  events.foldl step s

/-- The requests that some events perform, in their order. -/
def record (s : SharedStore) : List StoreEvent → List StoreRequest
  | [] => []
  | event :: rest => (s.performed? event).toList ++ (s.step event).record rest

theorem run_append (s : SharedStore) (events more : List StoreEvent) :
    s.run (events ++ more) = (s.run events).run more :=
  List.foldl_append

theorem record_append (s : SharedStore) (events more : List StoreEvent) :
    s.record (events ++ more) = s.record events ++ (s.run events).record more := by
  induction events generalizing s with
  | nil => rfl
  | cons event rest ih =>
    rw [List.cons_append, record, record, ih, List.append_assoc]
    rfl

theorem store_step (s : SharedStore) (event : StoreEvent) :
    (s.step event).store = (s.performed? event).toList.foldl Store.perform s.store := by
  cases event with
  | change fs => rfl
  | ask client call =>
    rw [step]
    split <;> rfl
  | serve client =>
    rw [step, performed?]
    cases s.waiting client <;> rfl

/-- **The store depends on the record alone**, whatever the clients and the file system do in between. -/
theorem store_run (s : SharedStore) (events : List StoreEvent) :
    (s.run events).store = (s.record events).foldl Store.perform s.store := by
  induction events generalizing s with
  | nil => rfl
  | cons event rest ih =>
    show ((s.step event).run rest).store = _
    rw [ih, store_step, record, List.foldl_append]

/-- The answers of a client after an event: those it had, under the one that the event gives to it. -/
theorem answers_step (s : SharedStore) (event : StoreEvent) (client : Nat) :
    (s.step event).answers client = s.answers client ∨
      ∃ request, s.performed? event = some request ∧
        (s.step event).answers client = s.store.answer request :: s.answers client := by
  cases event with
  | change fs => exact .inl rfl
  | ask c call =>
    rw [step]
    split <;> exact .inl rfl
  | serve c =>
    rw [step, performed?]
    cases s.waiting c with
    | none => exact .inl rfl
    | some request =>
      by_cases h : client = c
      · subst h
        exact .inr ⟨request, rfl, Function.update_self ..⟩
      · exact .inl (Function.update_of_ne h ..)

/-- **What a client has got stays as it is**: later events only put more on top of it. -/
theorem answers_suffix_run (s : SharedStore) (events : List StoreEvent) (client : Nat) :
    s.answers client <:+ (s.run events).answers client := by
  induction events generalizing s with
  | nil => exact List.suffix_refl _
  | cons event rest ih =>
    refine List.IsSuffix.trans ?_ (ih (s.step event))
    rcases s.answers_step event client with h | ⟨request, -, h⟩
    · simp [h]
    · simp [h]

theorem served_step {s : SharedStore} {client : Nat} {request : StoreRequest} (h : s.waiting client = some request) :
    (s.step (.serve client)).store = s.store.perform request ∧
      (s.step (.serve client)).answers client = s.store.answer request :: s.answers client := by
  rw [step, h]
  exact ⟨rfl, Function.update_self ..⟩

theorem waiting_step {s : SharedStore} {event : StoreEvent} {client : Nat} {request : StoreRequest}
    (h : s.waiting client = some request) (hevent : event ≠ .serve client) :
    (s.step event).waiting client = some request := by
  cases event with
  | change fs => exact h
  | ask c call =>
    rw [step]
    split
    · rename_i hidle _
      have hne : client ≠ c := by
        intro hc
        rw [← hc, h] at hidle
        cases hidle
      exact (Function.update_of_ne hne ..).trans h
    · exact h
  | serve c =>
    have hne : client ≠ c := fun hc => hevent (hc ▸ rfl)
    rw [step]
    split
    · exact (Function.update_of_ne hne ..).trans h
    · exact h

/-- A request waits, as it was made, until its client is served. -/
theorem waiting_run {client : Nat} {request : StoreRequest} (events : List StoreEvent) :
    ∀ {s : SharedStore}, s.waiting client = some request → .serve client ∉ events →
      (s.run events).waiting client = some request := by
  induction events with
  | nil => intro s h _; exact h
  | cons event rest ih =>
    intro s h hevents
    rw [List.mem_cons, not_or] at hevents
    exact ih (waiting_step h (Ne.symm hevents.1)) hevents.2

/-- A store without indexes and clients that have asked for nothing. -/
def start (config : Config) (fs : FileSystem) : SharedStore where
  fs := fs
  store := { config }

variable (config : Config) (fs : FileSystem) (events : List StoreEvent)

theorem wellKeyed_run : ((start config fs).run events).store.WellKeyed := by
  induction events using List.reverseRecOn with
  | nil => exact ⟨by simp [start, run], by simp [start, run]⟩
  | append_singleton events event ih =>
    rw [run_append]
    show (step _ event).store.WellKeyed
    rw [store_step]
    cases performed? _ event with
    | none => exact ih
    | some request => exact ih.perform request

theorem find?_run_eq_some_iff (key : RootKey) (o : ScanOutcome) :
    ((start config fs).run events).store.find? key = some o
      ↔ StoreRequest.LastPublished ((start config fs).record events) key o := by
  rw [store_run]
  exact StoreRequest.find?_foldl_perform_eq_some_iff config _ key o

theorem find?_run_eq_none_iff (key : RootKey) :
    ((start config fs).run events).store.find? key = none
      ↔ StoreRequest.Unpublished ((start config fs).record events) key := by
  rw [store_run]
  exact StoreRequest.find?_foldl_perform_eq_none_iff config _ key

/-- The index in an answer was published by a request on record, or by the request itself. -/
theorem published_of_answer {request : StoreRequest} {o : ScanOutcome}
    (h : ((start config fs).run events).store.answer request = .index (some o)) :
    .publish o ∈ (start config fs).record events ++ [request] := by
  cases request with
  | publish o' =>
    cases h
    simp
  | find key =>
    have hfind : ((start config fs).run events).store.find? key = some o := StoreAnswer.index.inj h
    obtain ⟨earlier, later, hrecord, -⟩ := (find?_run_eq_some_iff config fs events key o).mp hfind
    simp [hrecord]
  | remove key => cases h
  | roots => cases h

/-- No client gets an index that was never published. -/
theorem published_of_mem_answers (client : Nat) {o : ScanOutcome}
    (ho : .index (some o) ∈ ((start config fs).run events).answers client) :
    .publish o ∈ (start config fs).record events := by
  induction events using List.reverseRecOn with
  | nil => cases ho
  | append_singleton events event ih =>
    rw [record_append]
    rw [run_append] at ho
    rcases answers_step ((start config fs).run events) event client with h | ⟨request, hrequest, h⟩
    · exact List.mem_append_left _ (ih (h ▸ ho))
    · rcases List.mem_cons.mp (h ▸ ho) with hnew | hold
      · rw [record, record, hrequest, List.append_nil]
        exact published_of_answer config fs events hnew.symm
      · exact List.mem_append_left _ (ih hold)

/-- The store serves what the requests on record have published last. -/
structure ServesLast (s : SharedStore) (requests : List StoreRequest) : Prop where
  /-- Every index stands under the key of its root. -/
  wellKeyed : s.store.WellKeyed
  find : ∀ key o, s.store.find? key = some o ↔ StoreRequest.LastPublished requests key o
  /-- The key is the one that the path has now. -/
  get : ∀ root o, s.store.get? s.fs root = some o ↔ StoreRequest.LastPublished requests (s.fs.storeKey root) o
  get_none : ∀ root, s.store.get? s.fs root = none ↔ StoreRequest.Unpublished requests (s.fs.storeKey root)
  roots : s.store.roots.Pairwise fun a b => Path.order a b = .lt
  mem_roots : ∀ key, key ∈ s.store.roots ↔ (s.store.find? key).isSome
  /-- No client has got an index that was never published. -/
  published : ∀ client o, .index (some o) ∈ s.answers client → .publish o ∈ requests

/-- What the next events do, and what they leave as it is. -/
structure Proceeds (s : SharedStore) : Prop where
  /-- A call that is served at once is the operation of the store. -/
  atOnce : ∀ client call answer next, s.waiting client = none → s.store.call s.fs call = .ok (answer, next) →
    (s.run [.ask client call, .serve client]).store = next ∧
      (s.run [.ask client call, .serve client]).answers client = answer :: s.answers client
  /-- A call that is served later is answered from the store as it is then. -/
  served : ∀ client request, s.waiting client = some request →
    (s.step (.serve client)).store = s.store.perform request ∧
      (s.step (.serve client)).answers client = s.store.answer request :: s.answers client
  /-- A call that fails changes nothing. -/
  failed : ∀ client call e, s.store.call s.fs call = .error e → s.step (.ask client call) = s
  /-- An event does not touch the index under a key for which it performs no request. -/
  frame : ∀ event key, (∀ request ∈ s.performed? event, ¬request.Writes key) →
    (s.step event).store.find? key = s.store.find? key
  /-- What a client has asked for waits as it is until the client is served. -/
  waits : ∀ client request events, s.waiting client = some request → .serve client ∉ events →
    (s.run events).waiting client = some request
  /-- What a client has got stays as it is. -/
  kept : ∀ client events, s.answers client <:+ (s.run events).answers client

theorem proceeds (s : SharedStore) : s.Proceeds where
  atOnce := by
    intro client call answer next hidle hcall
    rw [s.store.call_eq] at hcall
    cases hprepare : call.prepare s.fs s.store.config with
    | error e =>
      rw [hprepare] at hcall
      cases hcall
    | ok request =>
      rw [hprepare] at hcall
      cases hcall
      have hask : s.step (.ask client call)
          = { s with waiting := Function.update s.waiting client (some request) } := by
        rw [step, hidle, hprepare]
      have hwaits : (s.step (.ask client call)).waiting client = some request := by
        rw [hask]
        exact Function.update_self ..
      have hserved := served_step hwaits
      have hstore : (s.step (.ask client call)).store = s.store := by rw [hask]
      have hanswers : (s.step (.ask client call)).answers = s.answers := by rw [hask]
      rw [hstore, hanswers] at hserved
      exact hserved
  served := fun client request => served_step
  failed := by
    intro client call e he
    rw [s.store.call_eq] at he
    rw [step]
    cases hprepare : call.prepare s.fs s.store.config with
    | ok request =>
      rw [hprepare] at he
      cases he
    | error e' => cases s.waiting client <;> rfl
  frame := by
    intro event key hrequest
    rw [s.store_step event]
    cases hperformed : s.performed? event with
    | none => rfl
    | some request => exact s.store.find?_perform_of_not_writes (hrequest request hperformed)
  waits := fun client request events => waiting_run events
  kept := fun client events => s.answers_suffix_run events client

end SharedStore

/-- **A shared store serves the last published index.** Over every list of events, of any clients and with any
changes of the file system among them. -/
theorem shared_store_serves_last_published (config : Config) (fs : FileSystem) (events : List StoreEvent) :
    ((SharedStore.start config fs).run events).ServesLast ((SharedStore.start config fs).record events) ∧
      ((SharedStore.start config fs).run events).Proceeds := by
  have hkeyed := SharedStore.wellKeyed_run config fs events
  refine ⟨?_, SharedStore.proceeds _⟩
  exact
    { wellKeyed := hkeyed
      find := SharedStore.find?_run_eq_some_iff config fs events
      get := fun root o => SharedStore.find?_run_eq_some_iff config fs events _ o
      get_none := fun root => SharedStore.find?_run_eq_none_iff config fs events _
      roots := hkeyed.roots_pairwise
      mem_roots := fun key => Store.mem_roots_iff key
      published := fun client o ho => SharedStore.published_of_mem_answers config fs events client ho }

end CodeAtlas
