import Strongbox.Proofs.Store.Placement
import Strongbox.Proofs.Store.Window

/-!
# Collections partition a store

The collections of a store are found by a walk over all keys, which need not come collection by
collection: "/a", "/a-b" and "/a/x" stand in this order.  Whatever the size of the pages is, the
walk sees every key once, and so every first segment is found exactly once, when its smallest
key is met.  The listings below the collections share out the other keys among them.  The main
statement is `Fleet.collections_partition`.
-/

set_option autoImplicit false

namespace Strongbox

namespace Store

/-! ## The names of a list of keys -/

/-- The names are the first segments of the keys, each one once and the latest first: of two
names the earlier one has a key below all keys of the later one. -/
structure Gathers (keys names : List String) : Prop where
  nodup : names.Nodup
  mem_iff : ∀ name, name ∈ names ↔ ∃ key ∈ keys, Path.first? key = some name
  order : names.Pairwise fun later earlier => ∃ key ∈ keys, Path.first? key = some earlier ∧
    ∀ other ∈ keys, Path.first? other = some later → key < other

namespace Gathers

variable {keys names : List String} {key : String}

/-- A greater key whose name is there already changes nothing. -/
theorem known (h : Gathers keys names) (hkey : ∀ other ∈ keys, other < key)
    (hname : ∀ name, Path.first? key = some name → name ∈ names) :
    Gathers (keys ++ [key]) names := by
  refine ⟨h.nodup, fun name => ?_, h.order.imp ?_⟩
  · constructor
    · intro hmem
      obtain ⟨other, hother, hfirst⟩ := (h.mem_iff name).1 hmem
      exact ⟨other, List.mem_append_left _ hother, hfirst⟩
    · rintro ⟨other, hother, hfirst⟩
      rcases List.mem_append.1 hother with hother | hother
      · exact (h.mem_iff name).2 ⟨other, hother, hfirst⟩
      · rw [List.mem_singleton.1 hother] at hfirst
        exact hname name hfirst
  · rintro later earlier ⟨least, hleast, hfirst, hbelow⟩
    refine ⟨least, List.mem_append_left _ hleast, hfirst, fun other hother hlater => ?_⟩
    rcases List.mem_append.1 hother with hother | hother
    · exact hbelow other hother hlater
    · rw [List.mem_singleton.1 hother]
      exact hkey least hleast

/-- A greater key with a new name adds that name as the latest one. -/
theorem new (h : Gathers keys names) (hkey : ∀ other ∈ keys, other < key) {name : String}
    (hfirst : Path.first? key = some name) (hnew : name ∉ names) :
    Gathers (keys ++ [key]) (name :: names) := by
  have hlast : ∀ other ∈ keys ++ [key], Path.first? other = some name → other = key := by
    intro other hother hname
    rcases List.mem_append.1 hother with hother | hother
    · exact absurd ((h.mem_iff name).2 ⟨other, hother, hname⟩) hnew
    · exact List.mem_singleton.1 hother
  refine ⟨List.nodup_cons.2 ⟨hnew, h.nodup⟩, fun found => ?_, List.pairwise_cons.2 ⟨?_, ?_⟩⟩
  · constructor
    · intro hfound
      rcases List.mem_cons.1 hfound with rfl | hfound
      · exact ⟨key, by simp, hfirst⟩
      · obtain ⟨other, hother, hname⟩ := (h.mem_iff found).1 hfound
        exact ⟨other, List.mem_append_left _ hother, hname⟩
    · rintro ⟨other, hother, hname⟩
      rcases List.mem_append.1 hother with hother | hother
      · exact List.mem_cons_of_mem _ ((h.mem_iff found).2 ⟨other, hother, hname⟩)
      · rw [List.mem_singleton.1 hother, hfirst] at hname
        injection hname with hname
        rw [hname]
        exact List.mem_cons_self
  · intro earlier hearlier
    obtain ⟨least, hleast, hname⟩ := (h.mem_iff earlier).1 hearlier
    refine ⟨least, List.mem_append_left _ hleast, hname, fun other hother hlater => ?_⟩
    rw [hlast other hother hlater]
    exact hkey least hleast
  · refine h.order.imp_of_mem ?_
    rintro later earlier hlater - ⟨least, hleast, hname, hbelow⟩
    refine ⟨least, List.mem_append_left _ hleast, hname, fun other hother hsame => ?_⟩
    rcases List.mem_append.1 hother with hother | hother
    · exact hbelow other hother hsame
    · rw [List.mem_singleton.1 hother]
      exact hkey least hleast

end Gathers

/-- Ascending keys have their names gathered in the order of the smallest keys. -/
theorem gathers_addNames {keys : List String} (h : keys.Pairwise (· < ·)) :
    Gathers keys (addNames [] keys) := by
  induction keys using List.reverseRecOn with
  | nil => exact ⟨.nil, fun name => by simp [addNames], .nil⟩
  | append_singleton keys key ih =>
    obtain ⟨hkeys, -, hkey⟩ := List.pairwise_append.1 h
    have hbelow : ∀ other ∈ keys, other < key := fun other hother =>
      hkey other hother key List.mem_cons_self
    have hgathers := ih hkeys
    unfold addNames at hgathers ⊢
    rw [List.foldl_append, List.foldl_cons, List.foldl_nil]
    generalize List.foldl _ [] keys = names at hgathers ⊢
    cases hfirst : Path.first? key with
    | none => exact hgathers.known hbelow (by simp [hfirst])
    | some name =>
      dsimp only
      split
      · rename_i hfound
        refine hgathers.known hbelow fun other hother => ?_
        rw [hfirst] at hother
        injection hother with hother
        rw [← hother]
        exact List.contains_iff_mem.1 hfound
      · rename_i hfound
        exact hgathers.new hbelow hfirst fun hmem => hfound (List.contains_iff_mem.2 hmem)

/-- Names may be gathered from a list of keys in two parts. -/
theorem addNames_append (names first second : List String) :
    addNames names (first ++ second) = addNames (addNames names first) second :=
  List.foldl_append

/-! ## The walk over all keys -/

open StoreCall

section Healthy

variable {s : Scene} (hs : s.ambient.engine.IsHealthy)
  (htext : s.ambient.engine.contents.HasTextKeys)

include hs htext

/-- The walk gathers the names of all keys ahead, whatever the size of its pages; no more pages
are read than there are keys and one. -/
theorem answer_collectNames {pageSize fuel : Nat} (hsize : 0 < pageSize) (after : Option String)
    (names : List String)
    (hfuel : (s.ambient.engine.contents.ahead Path.root after).length < fuel) :
    Call.answer (collectNames .background pageSize fuel after names s) =
      .ok (some (addNames names
        ((s.ambient.engine.contents.ahead Path.root after).map (·.1)))) := by
  induction fuel generalizing s after names with
  | zero => omega
  | succ fuel ih =>
    obtain ⟨t, ht, hboundary⟩ := boundary_background s
    have ht' : t.ambient.engine.IsHealthy := ht.engine ▸ hs
    have httext : t.ambient.engine.contents.HasTextKeys := ht.engine ▸ htext
    generalize hall : s.ambient.engine.contents.ahead Path.root after = all at hfuel ⊢
    have hcut : Range.cut pageSize (t.ambient.engine.contents.ahead Path.root after) =
        all.take pageSize := by
      rw [ht.engine, hall]
      exact if_neg (by omega)
    have hscan : onBarrier Path.root (Barrier.scanKeys Path.root after pageSize) t =
        .ok ((all.take pageSize).map (·.1)) t := by
      rw [← hcut]
      exact onBarrier_ok (Barrier.onEngine_ok (ht'.scanKeys httext))
    unfold collectNames
    rw [Call.bind_ok hboundary, Call.bind_ok hscan]
    simp only [List.isEmpty_map, List.length_map, List.length_take]
    by_cases hshort : all.length < pageSize
    · -- A short page holds all keys that are left.
      rw [if_pos (by simp; omega), List.take_of_length_le (by omega)]
      rfl
    · have hne : all ≠ [] := fun hnil => hshort (by simp [hnil, hsize])
      rw [if_neg (by simp [hne]; omega), List.getLast?_map]
      cases hlast : (all.take pageSize).getLast? with
      | none =>
        have hnil := congrArg List.length (List.getLast?_eq_none_iff.1 hlast)
        rw [List.length_take, List.length_nil] at hnil
        omega
      | some e =>
        rw [← hall] at hlast
        have hahead := Contents.ahead_of_getLast? hlast
        rw [hall] at hahead
        have hrest : t.ambient.engine.contents.ahead Path.root (some e.1) = all.drop pageSize := by
          rw [ht.engine, hahead]
        have hstep := ih (s := t) ht' httext (some e.1)
          (addNames names ((all.take pageSize).map (·.1)))
          (by rw [hrest, List.length_drop]; omega)
        refine hstep.trans ?_
        rw [hrest, ← addNames_append, ← List.map_append, List.take_append_drop]

/-- The collections are named by the first segments of the keys. -/
theorem answer_collections {session : Session} (hopen : s.store.session = some session)
    {parent : String} (hparent : Path.isRoot parent = true) :
    Call.answer (collections .background parent s) =
      .ok (some ((addNames [] ((s.ambient.engine.contents.ahead Path.root none).map
        (·.1))).reverse.map fun name => ⟨Path.join [name]⟩)) := by
  obtain ⟨t, ht, hboundary⟩ := boundary_background s
  have hsession : openSession t = .ok session t :=
    openSession_of_isOpen (by rw [ht.store, hopen])
  have hsize : 0 < t.store.pageSize := Nat.le_max_left 1 t.store.config.pageSize
  have hnames := answer_collectNames (s := t) (ht.engine ▸ hs) (ht.engine ▸ htext) hsize none []
    (Nat.lt_succ_of_le (Contents.length_ahead_le _ Path.root none))
  let walk : StoreCall (Option (List String)) := fun scene =>
    collectNames .background scene.store.pageSize (scene.ambient.engine.contents.size + 1) none []
      scene
  have hwalk : walk t = _ := Call.eq_ok_of_answer hnames
  unfold collections
  rw [Call.bind_ok hboundary, hparent, Bool.not_true, if_neg Bool.false_ne_true,
    Call.bind_ok hsession]
  refine (congrArg Call.answer (Call.bind_ok hwalk)).trans ?_
  rw [ht.engine]
  rfl

end Healthy

end Store

/-! ## Stores whose keys are places for documents -/

namespace Engine

/-- The names are the first segments of the stored paths, each one once, in the order of the
smallest path of each. -/
structure AreCollections (e : Engine) (names : List String) : Prop where
  nodup : names.Nodup
  mem_iff : ∀ name, name ∈ names ↔
    ∃ path, (e.value? path).isSome ∧ Path.first? path = some name
  order : names.Pairwise fun earlier later =>
    ∃ path, (e.value? path).isSome ∧ Path.first? path = some earlier ∧
      ∀ other, (e.value? other).isSome → Path.first? other = some later → path < other

/-- The stored paths, in ascending order. -/
def paths (e : Engine) : List String := e.contents.entries.map (·.1)

/-- The stored paths that lie below a first segment. -/
def pathsBelow (e : Engine) (name : String) : List String :=
  e.paths.filter fun path => Range.begins (Path.listingRange ("/" ++ name) "") path

/-- A path is listed exactly if a document is bound to it. -/
theorem mem_paths {e : Engine} {path : String} : path ∈ e.paths ↔ (e.value? path).isSome := by
  unfold paths
  rw [List.mem_map, Option.isSome_iff_exists]
  constructor
  · rintro ⟨entry, hentry, rfl⟩
    exact ⟨entry.2, Contents.mem_entries.1 hentry⟩
  · rintro ⟨value, hvalue⟩
    exact ⟨(path, value), Contents.mem_entries.2 hvalue, rfl⟩

/-- The paths are listed in order, each one once. -/
theorem ascending_paths (e : Engine) : e.paths.Pairwise (· < ·) :=
  List.pairwise_map.2 e.contents.ascending_entries

/-- The walk finds the collections of an engine. -/
theorem areCollections (e : Engine) : e.AreCollections (Store.addNames [] e.paths).reverse := by
  have hgathers := Store.gathers_addNames e.ascending_paths
  refine ⟨List.nodup_reverse.2 hgathers.nodup, fun name => ?_,
    List.pairwise_reverse.2 (hgathers.order.imp ?_)⟩
  · rw [List.mem_reverse, hgathers.mem_iff]
    simp only [mem_paths]
  · rintro later earlier ⟨path, hpath, hfirst, hbelow⟩
    exact ⟨path, mem_paths.1 hpath, hfirst, fun other hother => hbelow other (mem_paths.2 hother)⟩

namespace IsPlaced

variable {e : Engine} (h : e.IsPlaced)

include h

/-- All keys are in the range of the root. -/
theorem ahead_root : (e.contents.ahead Path.root none).map (·.1) = e.paths := by
  have hall : e.contents.ahead Path.root none = e.contents.entries := by
    unfold Contents.ahead Range.ahead
    rw [List.filter_eq_self]
    intro entry hentry
    have hstored : (e.value? entry.1).isSome := by
      have hvalue : e.value? entry.1 = some entry.2 := Contents.mem_entries.1 hentry
      rw [hvalue]
      rfl
    obtain ⟨c, cs, hpath, -⟩ := (h.isLocation entry.1 hstored).exists_toList
    have hbegins : Range.begins Path.root entry.1 = true :=
      List.isPrefixOf_iff_prefix.2 ⟨c :: cs, by rw [hpath]; rfl⟩
    simp [hbegins, LogDirectory.isSeen]
  rw [hall]
  rfl

/-- Every collection is named by a segment. -/
theorem isSegment_of_mem {names : List String} (hnames : e.AreCollections names) {name : String}
    (hname : name ∈ names) : Path.IsSegment name := by
  obtain ⟨path, hpath, hfirst⟩ := (hnames.mem_iff name).1 hname
  obtain ⟨found, hfound, hsegment⟩ := (h.isLocation path hpath).exists_first?
  rw [hfirst] at hfound
  injection hfound with hfound
  exact hfound ▸ hsegment

/-- A stored path belongs to one collection: it is the path of that collection or lies below
it. -/
theorem existsUnique_name {path : String} (hpath : (e.value? path).isSome) {names : List String}
    (hnames : e.AreCollections names) :
    ∃! name, name ∈ names ∧ (path = "/" ++ name ∨ path ∈ e.pathsBelow name) := by
  have hplace := h.isLocation path hpath
  have hiff : ∀ name ∈ names,
      (path = "/" ++ name ∨ path ∈ e.pathsBelow name) ↔ Path.first? path = some name := by
    intro name hname
    rw [hplace.first?_eq_some_iff (h.isSegment_of_mem hnames hname)]
    unfold pathsBelow
    simp [mem_paths, hpath]
  obtain ⟨name, hfirst, -⟩ := hplace.exists_first?
  have hname : name ∈ names := (hnames.mem_iff name).2 ⟨path, hpath, hfirst⟩
  refine ⟨name, ⟨hname, (hiff name hname).2 hfirst⟩, ?_⟩
  rintro other ⟨hother, hlies⟩
  have hsame := (hiff other hother).1 hlies
  rw [hfirst] at hsame
  injection hsame with hsame
  exact hsame.symm

end IsPlaced

end Engine

/-! ## What a store answers -/

namespace Store

variable {s : Scene} {session : Session} (hopen : s.store.session = some session)
  (hs : s.ambient.engine.IsPlaced)

include hopen hs

/-- The collections are those of the engine. -/
theorem answer_collections_of_isPlaced {parent : String} (hparent : Path.isRoot parent = true) :
    Call.answer (collections .background parent s) =
      .ok (some ((addNames [] s.ambient.engine.paths).reverse.map fun name => ⟨"/" ++ name⟩)) := by
  rw [answer_collections hs.isSteady.isHealthy hs.isSteady.hasTextKeys hopen hparent,
    hs.ahead_root]
  refine congrArg (Except.ok ∘ some) (List.map_congr_left fun name hname => ?_)
  rw [(hs.isSegment_of_mem s.ambient.engine.areCollections hname).join_eq]

/-- A listing below a collection hands out the paths that lie there. -/
theorem answer_documents_of_isPlaced (name : String) :
    Call.answer (documents .background ("/" ++ name) { pathsOnly := true } s) =
      .ok (some ((s.ambient.engine.pathsBelow name).map fun path =>
        { path, fields := [], createdAt := none, updatedAt := none })) := by
  have hkeys : (Window.of { pathsOnly := true } ("/" ++ name)
      s.ambient.engine.contents.entries).map (·.1) = s.ambient.engine.pathsBelow name := by
    unfold Engine.pathsBelow Engine.paths Window.of Range.cut
    simp [List.filter_map, Function.comp_def]
  rw [answer_documents hopen hs.isSteady.isHealthy hs.isSteady.hasTextKeys, if_pos rfl, ← hkeys,
    List.map_map]
  refine congrArg (Except.ok ∘ some) (List.map_congr_left fun e he => ?_)
  have hbelow : e.1 ∈ s.ambient.engine.pathsBelow name := hkeys ▸ List.mem_map_of_mem he
  have hstored := Engine.mem_paths.1 (List.mem_filter.1 hbelow).1
  rw [(hs.isLocation e.1 hstored).normalize_eq]
  rfl

end Store

namespace Fleet

/-- Stores work over one engine without faults, which is empty at first.  Then all its keys are
normalized paths below the root.  An open store comes to the end of its walk over them and finds
the first segments of these paths, each one once and in the order of the smallest path of each.
Of the collections so named, each stored path belongs to exactly one: it is the path of the
collection, or a listing below the collection hands it out, in a document that has nothing but
this path; a listing hands out no paths of other collections. -/
theorem collections_partition {f g : Fleet} (hhealthy : f.ambient.engine.IsHealthy)
    (hsize : f.ambient.engine.contents.size = 0) (hrun : f.Runs g) :
    (g.ambient.engine.contents.HasTextKeys ∧
      ∀ path, (g.ambient.engine.value? path).isSome → Path.IsLocation path) ∧
    ∀ i session, (g.stores i).session = some session →
      ∃ names, g.ambient.engine.AreCollections names ∧
        (∀ parent, Path.isRoot parent = true →
          Call.answer (Store.collections .background parent (g.scene i)) =
            .ok (some (names.map fun name => ⟨"/" ++ name⟩))) ∧
        ∃ listed : String → List String,
          (∀ name ∈ names,
            Call.answer (Store.documents .background ("/" ++ name) { pathsOnly := true }
              (g.scene i)) = .ok (some ((listed name).map fun path =>
                { path, fields := [], createdAt := none, updatedAt := none })) ∧
            ∀ path ∈ listed name, (g.ambient.engine.value? path).isSome ∧
              Path.first? path = some name) ∧
          ∀ path, (g.ambient.engine.value? path).isSome →
            ∃! name, name ∈ names ∧ (path = "/" ++ name ∨ path ∈ listed name) := by
  have hplaced := hrun.isPlaced hhealthy hsize
  have hsteady := hplaced.isSteady
  refine ⟨⟨hsteady.hasTextKeys, hplaced.isLocation⟩, fun i session hopen => ?_⟩
  have hnames := g.ambient.engine.areCollections
  refine ⟨_, hnames, fun parent => Store.answer_collections_of_isPlaced (s := g.scene i) hopen
    hplaced, g.ambient.engine.pathsBelow, fun name hname => ⟨?_, ?_⟩,
    fun path hpath => hplaced.existsUnique_name hpath hnames⟩
  · exact Store.answer_documents_of_isPlaced (s := g.scene i) hopen hplaced name
  · intro path hpath
    obtain ⟨hstored, hbegins⟩ := List.mem_filter.1 hpath
    exact ⟨Engine.mem_paths.1 hstored,
      (hplaced.isSegment_of_mem hnames hname).first?_of_begins hbegins⟩

/-- Of three documents, written to a store with pages of no size, one stands between the two of
its neighbour's collection. -/
theorem collections_of_three_documents :
    let f : Fleet := ⟨fun _ => .new { Config.standard with pageSize := 0 },
      { engine := default, clock := .standard, entropy := ⟨fun _ => 0, 0⟩ }⟩
    let g := [Command.openStore .background, .create .background "a-b" [],
      .create .background "/a" [], .create .background "a//x/" []].foldl
        (fun f c => f.withScene 0 (c.run (Key.uniform 7).cipher (f.scene 0))) f
    f.ambient.engine.IsHealthy ∧ f.ambient.engine.contents.size = 0 ∧ f.Runs g ∧
      ∃ (names : List String) (listed : String → List String),
        names.map ("/" ++ ·) = ["/a", "/a-b"] ∧
        Call.answer (Store.collections .background "//" (g.scene 0)) =
          .ok (some (names.map fun name => ⟨"/" ++ name⟩)) ∧
        (∀ name ∈ names, Call.answer (Store.documents .background ("/" ++ name)
          { pathsOnly := true } (g.scene 0)) = .ok (some ((listed name).map fun path =>
            { path, fields := [], createdAt := none, updatedAt := none }))) ∧
        ∃! name, name ∈ names ∧ ("/a//x" = "/" ++ name ∨ "/a//x" ∈ listed name) := by
  intro f g
  have hhealthy : f.ambient.engine.IsHealthy := ⟨.inl rfl, rfl, trivial⟩
  have hrun : f.Runs g :=
    (((Relation.ReflTransGen.single (.command _ 0 _)).tail (.command _ 0 _)).tail
      (.command _ 0 _)).tail (.command _ 0 _)
  have hopened : (g.stores 0).session.isSome ∧ (g.ambient.engine.value? "/a//x").isSome := by
    unfold g f
    decide +kernel
  have hfound : (Call.answer (Store.collections .background "//" (g.scene 0))).toOption.map
      (Option.map (List.map (·.path))) = some (some ["/a", "/a-b"]) := by
    unfold g f
    decide +kernel
  obtain ⟨session, hsession⟩ := Option.isSome_iff_exists.1 hopened.1
  obtain ⟨-, hstore⟩ := collections_partition hhealthy rfl hrun
  obtain ⟨names, -, hanswer, listed, hlisted, hunique⟩ := hstore 0 session hsession
  rw [hanswer "//" (by decide)] at hfound
  refine ⟨hhealthy, rfl, hrun, names, listed, ?_, hanswer "//" (by decide),
    fun name hname => (hlisted name hname).1, hunique "/a//x" hopened.2⟩
  simpa [Except.toOption, Function.comp_def] using hfound

end Fleet

end Strongbox
