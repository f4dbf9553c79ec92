import WorkTablesIndex.Topology
import WorkTablesIndex.PublishedIndexLaws

/-! The publication invariant. Three structures describe the same nodes: the
canonical index, the published routes, and the map from node identity to route
key. Re-keying the last node may leave its route behind; every later structural
change repairs it before another node can follow. -/

universe v

namespace WorkTablesIndex
open PublishedNodeIndex SortedMap

variable {κ : Type v} [LinearOrder κ]

/-- Canonical entries and routes list the same nodes in one order, and differ
at most in the key of the last one. -/
inductive Agrees : List (κ × NodeId) → List (κ × NodeId) → Prop where
  | exact (entries : List (κ × NodeId)) : Agrees entries entries
  | stale (init : List (κ × NodeId)) (canonical route : κ) (node : NodeId) :
      Agrees (init ++ [(canonical, node)]) (init ++ [(route, node)])

def LinkedOnce (index : NodeIndex κ) : Prop :=
  ∀ first second node, (first, node) ∈ index → (second, node) ∈ index → first = second

structure Publishes (index : NodeIndex κ) (routes : PublishedNodeIndex κ) (keys : SortedMap NodeId κ) : Prop where
  wellFormed : routes.WellFormed
  once : LinkedOnce index
  agrees : Agrees index.entries routes.routes
  keys : ∀ node route, (node, route) ∈ keys ↔ (route, node) ∈ routes.routes

omit [LinearOrder κ] in
theorem Agrees.nodes {canonical routes : List (κ × NodeId)} (agrees : Agrees canonical routes) :
    routes.map Prod.snd = canonical.map Prod.snd := by
  cases agrees <;> simp

omit [LinearOrder κ] in
theorem Agrees.dropLast {canonical routes : List (κ × NodeId)} (agrees : Agrees canonical routes) :
    routes.dropLast = canonical.dropLast := by
  cases agrees <;> simp

theorem LinkedOnce.nodup {index : NodeIndex κ} (once : LinkedOnce index) : (index.entries.map Prod.snd).Nodup := by
  refine List.pairwise_map.mpr (List.Pairwise.imp_of_mem ?_ index.sorted)
  rintro ⟨first, node⟩ ⟨second, other⟩ left right below same
  have equal : node = other := same
  subst equal
  exact below.ne (once first second node left right)

theorem publishes_new : Publishes (Topology.new : Topology κ).index (Topology.new : Topology κ).published
    (Topology.new : Topology κ).publishedKeys :=
  ⟨new_wellFormed, fun _ _ _ member => (not_mem_empty _ member).elim, .exact [], fun _ _ => by
    simp [Topology.new, routes, PublishedNodeIndex.new]⟩

/-- Every node keeps one route, which is exact unless the node is last. -/
theorem Publishes.route {index : NodeIndex κ} {routes : PublishedNodeIndex κ} {keys : SortedMap NodeId κ}
    (valid : Publishes index routes keys) {key : κ} {node : NodeId} (linked : (key, node) ∈ index) :
    ∃ route, (route, node) ∈ routes.routes := by
  have listed : node ∈ index.entries.map Prod.snd := List.mem_map.mpr ⟨_, linked, rfl⟩
  rw [← valid.agrees.nodes] at listed
  obtain ⟨⟨route, other⟩, member, same⟩ := List.mem_map.mp listed
  cases same
  exact ⟨route, member⟩

theorem Agrees.erase {index : NodeIndex κ} {routes : List (κ × NodeId)} (agrees : Agrees index.entries routes)
    (ascending : Ascending routes) (once : LinkedOnce index) {key route : κ} {node : NodeId}
    (linked : (key, node) ∈ index) (routed : (route, node) ∈ routes) :
    Agrees (index.erase key).entries (eraseEntry route routes) := by
  change Agrees (eraseEntry key index.entries) _
  have sorted := index.sorted
  simp only [LinkedOnce, mem_def] at once linked
  generalize index.entries = entries at *
  cases agrees with
  | exact =>
    cases once key route node linked routed
    exact .exact _
  | stale init canonical last final =>
    by_cases here : node = final
    · subst here
      have keySame : key = canonical := once key canonical node linked (by simp)
      have routeSame : route = last := by
        by_contra different
        have earlier : (route, node) ∈ init := by simpa [different] using routed
        have same := once route canonical node (List.mem_append_left _ earlier) (by simp)
        exact absurd same ((List.pairwise_append.mp sorted).2.2 _ earlier _ List.mem_cons_self).ne
      subst keySame routeSame
      rw [eraseEntry_hit sorted, eraseEntry_hit ascending]
      exact .exact _
    · have keyEarlier : (key, node) ∈ init := by simpa [here] using linked
      have routeEarlier : (route, node) ∈ init := by simpa [here] using routed
      cases once key route node linked (List.mem_append_left _ routeEarlier)
      have canonicalApart := ((List.pairwise_append.mp sorted).2.2 _ keyEarlier _ List.mem_cons_self).ne'
      have lastApart := ((List.pairwise_append.mp ascending).2.2 _ routeEarlier _ List.mem_cons_self).ne'
      have keptCanonical : eraseEntry key [(canonical, final)] = [(canonical, final)] :=
        eraseEntry_absent (by simpa using canonicalApart)
      have keptLast : eraseEntry key [(last, final)] = [(last, final)] := eraseEntry_absent (by simpa using lastApart)
      rw [eraseEntry_append, eraseEntry_append, keptCanonical, keptLast]
      exact .stale _ _ _ _

theorem LinkedOnce.erase {index : NodeIndex κ} (once : LinkedOnce index) (key : κ) : LinkedOnce (index.erase key) := by
  intro first second node left right
  exact once first second node ((mem_erase ..).mp left).2 ((mem_erase ..).mp right).2

theorem LinkedOnce.insert {index : NodeIndex κ} (once : LinkedOnce index) (key : κ) {node : NodeId}
    (fresh : ∀ other, (other, node) ∉ index) : LinkedOnce (index.insert key node) := by
  intro first second other left right
  rcases (mem_insert ..).mp left with leftNew | ⟨_, leftOld⟩
  · rcases (mem_insert ..).mp right with rightNew | ⟨_, rightOld⟩
    · exact (Prod.mk.inj leftNew).1.trans (Prod.mk.inj rightNew).1.symm
    · cases leftNew
      exact absurd rightOld (fresh second)
  · rcases (mem_insert ..).mp right with rightNew | ⟨_, rightOld⟩
    · cases rightNew
      exact absurd leftOld (fresh first)
    · exact once first second other leftOld rightOld

namespace TopologyWriteGuard

/-- What holds of an open guard between two of its operations. -/
structure Consistent (guard : TopologyWriteGuard κ) : Prop where
  publishes : Publishes guard.index guard.snapshot guard.topology.publishedKeys
  clean : guard.dirty = false → guard.snapshot = guard.topology.published
  optOut : guard.publish = false → guard.published = none
  carried : guard.publish = true → guard.dirty = true → guard.published.isSome = true

def Exact (guard : TopologyWriteGuard κ) : Prop := guard.snapshot.routes = guard.index.entries

@[simp] theorem setIndex_index (guard : TopologyWriteGuard κ) (index : NodeIndex κ) :
    (guard.setIndex index).index = index := rfl

@[simp] theorem setIndex_snapshot (guard : TopologyWriteGuard κ) (index : NodeIndex κ) :
    (guard.setIndex index).snapshot = guard.snapshot := rfl

@[simp] theorem ensurePublicationSnapshot_snapshot (guard : TopologyWriteGuard κ) :
    guard.ensurePublicationSnapshot.snapshot = guard.snapshot := rfl

theorem publishRoute_index (guard : TopologyWriteGuard κ) (key : κ) (node : NodeId) :
    (guard.publishRoute key node).index = guard.index := by
  simp only [publishRoute]
  repeat' split
  all_goals rfl

theorem retractRoute_index (guard : TopologyWriteGuard κ) (node : NodeId) : (guard.retractRoute node).2.index = guard.index := by
  simp only [retractRoute]
  split <;> rfl

theorem repairLastRouteBeforeInsert_index (guard : TopologyWriteGuard κ) :
    guard.repairLastRouteBeforeInsert.index = guard.index := by
  simp only [repairLastRouteBeforeInsert]
  repeat' split
  all_goals rfl

theorem insertAfterLastRouteRepair_index (guard : TopologyWriteGuard κ) (key : κ) (node : NodeId) :
    (guard.insertAfterLastRouteRepair key node).2.index = guard.index.insert key node := by
  simp only [insertAfterLastRouteRepair]
  split
  · split
    · exact publishRoute_index ..
    next replaced _ =>
      split
      next later agreed =>
        exact (publishRoute_index ..).trans ((congrArg (fun outcome => outcome.2.index) agreed).symm.trans (retractRoute_index ..))
      next later agreed =>
        exact (congrArg (fun outcome => outcome.2.index) agreed).symm.trans (retractRoute_index ..)
  · rfl

theorem insert_index (guard : TopologyWriteGuard κ) (key : κ) (node : NodeId) :
    (guard.insert key node).2.index = guard.index.insert key node := by
  rw [insert, insertAfterLastRouteRepair_index, repairLastRouteBeforeInsert_index]

theorem remove_index (guard : TopologyWriteGuard κ) (key : κ) : (guard.remove key).2.index = guard.index.erase key := by
  simp only [remove]
  split
  next missing =>
    apply ext_mem
    intro entry
    rw [mem_erase]
    exact ⟨fun member => ⟨get?_eq_none.mp missing entry member, member⟩, And.right⟩
  next removed _ =>
    split
    · split
      next later agreed =>
        exact (congrArg (fun outcome => outcome.2.index) agreed).symm.trans (retractRoute_index ..)
      next later agreed =>
        exact (congrArg (fun outcome => outcome.2.index) agreed).symm.trans (retractRoute_index ..)
    · rfl

theorem drop_index (guard : TopologyWriteGuard κ) : guard.drop.index = guard.index := by
  simp only [drop, swapRoot, finish]
  repeat' split
  all_goals rfl

theorem Consistent.ensure {guard : TopologyWriteGuard κ} (valid : Consistent guard) (publishing : guard.publish = true) :
    Consistent guard.ensurePublicationSnapshot :=
  ⟨valid.publishes, valid.clean, fun optOut => absurd (publishing.symm.trans optOut) (by simp), fun _ _ => rfl⟩

private theorem last_route {guard : TopologyWriteGuard κ} (valid : Consistent guard) {canonical : κ} {node : NodeId}
    (last : guard.index.last? = some (canonical, node)) :
    ∃ init route, guard.index.entries = init ++ [(canonical, node)] ∧ guard.snapshot.routes = init ++ [(route, node)] ∧
      guard.topology.publishedKeys.get? node = some route := by
  obtain ⟨init, cut⟩ := List.getLast?_eq_some_iff.mp last
  obtain ⟨route, stale⟩ : ∃ route, guard.snapshot.routes = init ++ [(route, node)] := by
    have agrees := valid.publishes.agrees
    rw [cut] at agrees
    generalize guard.snapshot.routes = routes at agrees
    generalize same : init ++ [(canonical, node)] = entries at agrees
    cases agrees with
    | exact => exact ⟨canonical, same.symm⟩
    | stale other key route target =>
      obtain ⟨rfl, equal⟩ := List.append_inj' same rfl
      cases equal
      exact ⟨route, rfl⟩
  exact ⟨init, route, cut, stale, get?_eq_some.mpr ((valid.publishes.keys node route).mpr (by rw [stale]; simp))⟩

private theorem repair_routes {guard : TopologyWriteGuard κ} (valid : Consistent guard) {init : List (κ × NodeId)}
    {canonical route : κ} {node : NodeId} (cut : guard.index.entries = init ++ [(canonical, node)])
    (stale : guard.snapshot.routes = init ++ [(route, node)]) :
    (guard.snapshot.remove route).1 = some node ∧
    ((guard.snapshot.remove route).2.insert canonical node).1 = none ∧
    ((guard.snapshot.remove route).2.insert canonical node).2.routes = guard.index.entries ∧
    ((guard.snapshot.remove route).2.insert canonical node).2.WellFormed := by
  have ascending : Ascending (init ++ [(canonical, node)]) := cut ▸ guard.index.sorted
  have below : ∀ entry ∈ init, entry.1 < canonical :=
    fun entry member => (List.pairwise_append.mp ascending).2.2 entry member _ List.mem_cons_self
  have routesSorted : Ascending (init ++ [(route, node)]) := stale ▸ valid.publishes.wellFormed.ascending
  obtain ⟨taken, shrunk, shrunkValid⟩ := remove_spec valid.publishes.wellFormed route
  rw [stale, eraseEntry_hit routesSorted, List.append_nil] at shrunk
  obtain ⟨displaced, grown, grownValid⟩ := insert_spec shrunkValid canonical node
  refine ⟨?_, ?_, ?_, grownValid⟩
  · rw [taken, lookup_eq_some valid.publishes.wellFormed.ascending, stale]
    simp
  · rw [displaced, shrunk]
    exact (lookup_eq_none canonical).mpr fun entry member => (below entry member).ne
  · rw [grown, shrunk, cut]
    simpa using insertEntry_gap [] below (by simp)

theorem repairLastRouteBeforeInsert_spec {guard : TopologyWriteGuard κ} (valid : Consistent guard)
    (publishing : guard.publish = true) :
    Consistent guard.repairLastRouteBeforeInsert ∧ Exact guard.repairLastRouteBeforeInsert ∧
      guard.repairLastRouteBeforeInsert.index = guard.index ∧ guard.repairLastRouteBeforeInsert.publish = true := by
  cases last : guard.index.last? with
  | none =>
    have empty : guard.index.entries = [] := List.getLast?_eq_none_iff.mp last
    have result : guard.repairLastRouteBeforeInsert = guard := by simp [repairLastRouteBeforeInsert, last]
    have nodes := valid.publishes.agrees.nodes
    rw [empty, List.map_nil, List.map_eq_nil_iff] at nodes
    rw [result]
    exact ⟨valid, nodes.trans empty.symm, rfl, publishing⟩
  | some entry =>
    obtain ⟨canonical, node⟩ := entry
    obtain ⟨init, route, cut, stale, recorded⟩ := last_route valid last
    by_cases same : route = canonical
    · have result : guard.repairLastRouteBeforeInsert = guard.ensurePublicationSnapshot := by
        simp [repairLastRouteBeforeInsert, last, ensurePublicationSnapshot, recorded, same]
      rw [result]
      refine ⟨valid.ensure publishing, ?_, rfl, publishing⟩
      rw [Exact, ensurePublicationSnapshot_snapshot, stale, same]
      exact cut.symm
    · obtain ⟨removed, free, repaired, wellFormed⟩ := repair_routes valid cut stale
      have result : guard.repairLastRouteBeforeInsert =
          { guard.setPublishedKeys (guard.topology.publishedKeys.insert node canonical) with
            published := some ((guard.snapshot.remove route).2.insert canonical node).2
            dirty := true } := by
        simp only [repairLastRouteBeforeInsert, last, ensurePublicationSnapshot, recorded, if_neg same]
        exact if_pos ⟨removed, free⟩
      rw [result]
      refine ⟨⟨⟨wellFormed, valid.publishes.once, ?_, ?_⟩, ?_, ?_, fun _ _ => rfl⟩, repaired, rfl, publishing⟩
      · change Agrees guard.index.entries ((guard.snapshot.remove route).2.insert canonical node).2.routes
        rw [repaired]
        exact .exact _
      · intro other key
        change (other, key) ∈ guard.topology.publishedKeys.insert node canonical ↔
          (key, other) ∈ ((guard.snapshot.remove route).2.insert canonical node).2.routes
        rw [repaired, mem_insert, valid.publishes.keys, stale, cut]
        have apart : ∀ earlier, (earlier, node) ∈ init → False := by
          intro earlier member
          have ascending : Ascending (init ++ [(canonical, node)]) := cut ▸ guard.index.sorted
          have below := (List.pairwise_append.mp ascending).2.2 _ member _ List.mem_cons_self
          refine below.ne (valid.publishes.once earlier canonical node ?_ ?_)
          · rw [mem_def, cut]; exact List.mem_append_left _ member
          · rw [mem_def, cut]; simp
        simp only [List.mem_append, List.mem_singleton, Prod.mk.injEq]
        constructor
        · rintro (⟨rfl, rfl⟩ | ⟨different, member | ⟨_, same⟩⟩)
          · exact Or.inr ⟨rfl, rfl⟩
          · exact Or.inl member
          · exact absurd same different
        · rintro (member | ⟨rfl, rfl⟩)
          · exact Or.inr ⟨fun equal => apart key (equal ▸ member), Or.inl member⟩
          · exact Or.inl ⟨rfl, rfl⟩
      · exact fun impossible => absurd impossible (by simp)
      · exact fun optOut => absurd (publishing.symm.trans optOut) (by simp)

private theorem retractRoute_spec (guard : TopologyWriteGuard κ) (wellFormed : guard.snapshot.WellFormed)
    (keys : ∀ node route, (node, route) ∈ guard.topology.publishedKeys ↔ (route, node) ∈ guard.snapshot.routes)
    {route : κ} {node : NodeId} (routed : (route, node) ∈ guard.snapshot.routes) :
    ∃ routes : PublishedNodeIndex κ, guard.retractRoute node =
        (true, { guard.setPublishedKeys (guard.topology.publishedKeys.erase node) with published := some routes }) ∧
      routes.WellFormed ∧ routes.routes = eraseEntry route guard.snapshot.routes ∧
      ∀ other key, (other, key) ∈ guard.topology.publishedKeys.erase node ↔ (key, other) ∈ routes.routes := by
  obtain ⟨taken, erased, valid⟩ := remove_spec wellFormed route
  have recorded : (node, route) ∈ guard.topology.publishedKeys := (keys node route).mpr routed
  refine ⟨(guard.snapshot.remove route).2, ?_, valid, erased, ?_⟩
  · rw [(lookup_eq_some wellFormed.ascending route node).mpr routed] at taken
    simp [retractRoute, get?_eq_some.mpr recorded, taken]
  · intro other key
    rw [erased, mem_erase, keys, eraseEntry, List.mem_filter]
    simp only [decide_eq_true_eq]
    constructor
    · intro given
      obtain ⟨different, member⟩ := given
      refine ⟨member, fun same => different ?_⟩
      exact key_unique wellFormed.ascending (same ▸ member) routed
    · intro given
      obtain ⟨member, different⟩ := given
      refine ⟨fun same => different ?_, member⟩
      exact value_unique ((keys node key).mpr (same ▸ member)) recorded

private theorem publishRoute_spec (guard : TopologyWriteGuard κ) (wellFormed : guard.snapshot.WellFormed)
    (key : κ) (node : NodeId) (free : ∀ entry ∈ guard.snapshot.routes, entry.1 ≠ key) :
    ∃ routes : PublishedNodeIndex κ, guard.publishRoute key node =
        { guard.setPublishedKeys (guard.topology.publishedKeys.insert node key) with published := some routes } ∧
      routes.WellFormed ∧ routes.routes = insertEntry key node guard.snapshot.routes := by
  obtain ⟨displaced, grown, valid⟩ := insert_spec wellFormed key node
  rw [(lookup_eq_none key).mpr free] at displaced
  exact ⟨(guard.snapshot.insert key node).2, by simp [publishRoute, displaced], valid, grown⟩

theorem insertAfterLastRouteRepair_spec {guard : TopologyWriteGuard κ} (valid : Consistent guard) (exact_ : Exact guard)
    (publishing : guard.publish = true) (key : κ) (node : NodeId) (fresh : ∀ other, (other, node) ∉ guard.index) :
    (guard.insertAfterLastRouteRepair key node).1 = guard.index.get? key ∧
    (guard.insertAfterLastRouteRepair key node).2.index = guard.index.insert key node ∧
    (guard.insertAfterLastRouteRepair key node).2.publish = true ∧
    Consistent (guard.insertAfterLastRouteRepair key node).2 ∧ Exact (guard.insertAfterLastRouteRepair key node).2 := by
  have wellFormed := valid.publishes.wellFormed
  have once := valid.publishes.once.insert key fresh
  -- the guard's fields after both branches, as one record
  have close (routes : PublishedNodeIndex κ) (keys : SortedMap NodeId κ) (routesValid : routes.WellFormed)
      (grown : routes.routes = (guard.index.insert key node).entries)
      (recorded : ∀ other route, (other, route) ∈ keys ↔ (route, other) ∈ guard.index.insert key node) :
      let after : TopologyWriteGuard κ := { (guard.setIndex (guard.index.insert key node)).setPublishedKeys keys with
        published := some routes, dirty := true }
      Consistent after ∧ Exact after := by
    refine ⟨⟨⟨routesValid, once, ?_, ?_⟩, ?_, ?_, fun _ _ => rfl⟩, grown⟩
    · change Agrees (guard.index.insert key node).entries routes.routes
      rw [grown]
      exact .exact _
    · intro other route
      change (other, route) ∈ keys ↔ (route, other) ∈ routes.routes
      rw [recorded, grown, mem_def]
    · exact fun impossible => absurd impossible (by simp)
    · exact fun optOut => absurd (publishing.symm.trans optOut) (by simp)
  let opened : TopologyWriteGuard κ :=
    ensurePublicationSnapshot { guard.setIndex (guard.index.insert key node) with dirty := true }
  have openedKeys : ∀ other route, (other, route) ∈ opened.topology.publishedKeys ↔ (route, other) ∈ guard.index := by
    intro other route
    exact (valid.publishes.keys other route).trans (by rw [exact_, mem_def])
  cases found : guard.index.get? key with
  | none =>
    have absent := get?_eq_none.mp found
    obtain ⟨routes, published, routesValid, grown⟩ := publishRoute_spec opened wellFormed key node
      (fun entry member => absent entry (by rw [mem_def, ← exact_]; exact member))
    have result : guard.insertAfterLastRouteRepair key node = (none, opened.publishRoute key node) := by
      simp [insertAfterLastRouteRepair, found, setIndex, publishing, opened]
    rw [result, published]
    refine ⟨rfl, rfl, publishing, close routes _ routesValid ?_ ?_⟩
    · rw [grown]
      exact congrArg (insertEntry key node) exact_
    · intro other route
      rw [mem_insert, openedKeys, mem_insert]
      constructor
      · rintro (equal | ⟨_, member⟩)
        · cases equal; exact Or.inl rfl
        · exact Or.inr ⟨absent _ member, member⟩
      · rintro (equal | ⟨_, member⟩)
        · cases equal; exact Or.inl rfl
        · exact Or.inr ⟨fun same => fresh route (same ▸ member), member⟩
  | some replaced =>
    have linked : (key, replaced) ∈ guard.index := get?_eq_some.mp found
    obtain ⟨shrunk, retracted, shrunkValid, erased, shrunkKeys⟩ := retractRoute_spec opened wellFormed
      (fun other route => (valid.publishes.keys other route))
      (show (key, replaced) ∈ opened.snapshot.routes by
        change (key, replaced) ∈ guard.snapshot.routes
        rw [exact_]
        exact linked)
    let reduced : TopologyWriteGuard κ :=
      { opened.setPublishedKeys (opened.topology.publishedKeys.erase replaced) with published := some shrunk }
    have reducedRoutes : reduced.snapshot.routes = eraseEntry key guard.index.entries := by
      rw [← exact_]
      exact erased
    obtain ⟨routes, published, routesValid, grown⟩ := publishRoute_spec reduced shrunkValid key node
      (fun entry member => by
        rw [reducedRoutes, eraseEntry, List.mem_filter] at member
        simpa using member.2)
    have result : guard.insertAfterLastRouteRepair key node = (some replaced, reduced.publishRoute key node) := by
      have step : (ensurePublicationSnapshot { guard.setIndex (guard.index.insert key node) with dirty := true }).retractRoute
        replaced = (true, reduced) := retracted
      simp only [insertAfterLastRouteRepair, found]
      apply (if_pos publishing).trans
      rw [step]
    rw [result, published]
    refine ⟨rfl, rfl, publishing, close routes _ routesValid ?_ ?_⟩
    · rw [grown, reducedRoutes]
      apply ascending_ext (insertEntry_sorted (eraseEntry_sorted guard.index.sorted)) (insertEntry_sorted guard.index.sorted)
      intro entry
      rw [mem_insertEntry (eraseEntry_sorted guard.index.sorted), mem_insertEntry guard.index.sorted, eraseEntry, List.mem_filter]
      simp only [decide_eq_true_eq]
      exact or_congr_right ⟨fun both => ⟨both.1, both.2.1⟩, fun both => ⟨both.1, both.2, both.1⟩⟩
    · intro other route
      have step : (other, route) ∈ reduced.topology.publishedKeys ↔ route ≠ key ∧ (route, other) ∈ guard.index := by
        apply (shrunkKeys other route).trans
        rw [erased]
        change (route, other) ∈ eraseEntry key guard.snapshot.routes ↔ _
        rw [exact_]
        exact (mem_erase ..: (route, other) ∈ guard.index.erase key ↔ _)
      rw [mem_insert, step, mem_insert]
      constructor
      · rintro (equal | ⟨_, member⟩)
        · cases equal; exact Or.inl rfl
        · exact Or.inr member
      · rintro (equal | member)
        · cases equal; exact Or.inl rfl
        · exact Or.inr ⟨fun same => fresh route (same ▸ member.2), member⟩

theorem insert_spec {guard : TopologyWriteGuard κ} (valid : Consistent guard) (publishing : guard.publish = true)
    (key : κ) (node : NodeId) (fresh : ∀ other, (other, node) ∉ guard.index) :
    (guard.insert key node).1 = guard.index.get? key ∧
    (guard.insert key node).2.index = guard.index.insert key node ∧
    (guard.insert key node).2.publish = true ∧
    Consistent (guard.insert key node).2 ∧ Exact (guard.insert key node).2 := by
  obtain ⟨repaired, exact_, same, publish⟩ := repairLastRouteBeforeInsert_spec valid publishing
  have inserted := insertAfterLastRouteRepair_spec repaired exact_ publish key node (by rw [same]; exact fresh)
  rwa [same] at inserted

theorem remove_spec {guard : TopologyWriteGuard κ} (valid : Consistent guard) (publishing : guard.publish = true) (key : κ) :
    (guard.remove key).1 = guard.index.get? key ∧
    (guard.remove key).2.index = guard.index.erase key ∧
    (guard.remove key).2.publish = true ∧ Consistent (guard.remove key).2 ∧
    (Exact guard → Exact (guard.remove key).2) := by
  cases found : guard.index.get? key with
  | none =>
    have absent := get?_eq_none.mp found
    have result : guard.remove key = (none, guard) := by simp [remove, found]
    have same : guard.index.erase key = guard.index := by
      apply ext_mem
      intro entry
      rw [mem_erase]
      exact ⟨And.right, fun member => ⟨absent entry member, member⟩⟩
    rw [result, same]
    exact ⟨rfl, rfl, publishing, valid, id⟩
  | some node =>
    have linked : (key, node) ∈ guard.index := get?_eq_some.mp found
    obtain ⟨route, routed⟩ := valid.publishes.route linked
    let opened : TopologyWriteGuard κ :=
      ensurePublicationSnapshot { guard.setIndex (guard.index.erase key) with dirty := true }
    obtain ⟨routes, retracted, routesValid, erased, keys⟩ := retractRoute_spec opened
      valid.publishes.wellFormed valid.publishes.keys (show (route, node) ∈ opened.snapshot.routes from routed)
    have result : guard.remove key = (some node,
        { opened.setPublishedKeys (opened.topology.publishedKeys.erase node) with published := some routes }) := by
      have step : (ensurePublicationSnapshot { guard.setIndex (guard.index.erase key) with dirty := true }).retractRoute node =
        (true, { opened.setPublishedKeys (opened.topology.publishedKeys.erase node) with published := some routes }) := retracted
      simp only [remove, found]
      apply (if_pos publishing).trans
      rw [step]
    rw [result]
    refine ⟨rfl, rfl, publishing, ⟨⟨routesValid, valid.publishes.once.erase key, ?_, keys⟩, ?_, ?_, fun _ _ => rfl⟩, ?_⟩
    · change Agrees (guard.index.erase key).entries routes.routes
      rw [erased]
      exact valid.publishes.agrees.erase valid.publishes.wellFormed.ascending valid.publishes.once linked routed
    · exact fun impossible => absurd impossible (by simp [opened, ensurePublicationSnapshot, setPublishedKeys])
    · exact fun optOut => absurd (publishing.symm.trans optOut) (by simp)
    · intro exact_
      have routed' : (route, node) ∈ guard.index := by rw [mem_def, ← exact_]; exact routed
      cases valid.publishes.once key route node linked routed'
      change routes.routes = (guard.index.erase key).entries
      rw [erased]
      exact congrArg (eraseEntry key) exact_

theorem enablePublication_spec {guard : TopologyWriteGuard κ} (valid : Consistent guard) (clean : guard.enablePublicationAsserts) :
    guard.enablePublication.index = guard.index ∧ guard.enablePublication.publish = true ∧
    Consistent guard.enablePublication ∧ (Exact guard → Exact guard.enablePublication) := by
  by_cases publishing : guard.publish = true
  · have result : guard.enablePublication = guard := by simp [enablePublication, publishing]
    rw [result]
    exact ⟨rfl, publishing, valid, id⟩
  · have optOut : guard.publish = false := by simpa using publishing
    have result : guard.enablePublication = { guard with
        topology := { guard.topology with generation := guard.topology.generation + 1 }
        publish := true } := by simp [enablePublication, optOut]
    rw [result]
    refine ⟨rfl, rfl, ⟨valid.publishes, valid.clean, fun impossible => absurd impossible (by simp), ?_⟩, id⟩
    exact fun _ dirty => absurd (dirty.symm.trans (clean optOut)) (by simp)

/-- What the fast path of a boundary repair has checked about the last node. -/
theorem canRekey_facts {guard : TopologyWriteGuard κ} {node : NodeId} {newKey : κ}
    (allowed : guard.canRekeyLastNodeWithoutPublication node newKey = true) :
    ∃ init oldKey, guard.index.entries = init ++ [(oldKey, node)] ∧ (∀ entry ∈ init, entry.1 < newKey) ∧
      guard.topology.publishedLastIs node = true := by
  simp only [canRekeyLastNodeWithoutPublication] at allowed
  split at allowed
  · cases allowed
  next oldKey last earlier seen =>
    split at allowed
    · cases allowed
    next checked =>
      simp only [ne_eq, not_or, not_not, Bool.not_eq_false] at checked
      obtain ⟨rfl, published⟩ := checked
      have cut : guard.index.entries = earlier.reverse ++ [(oldKey, last)] := by
        rw [← List.reverse_reverse guard.index.entries, seen, List.reverse_cons]
      refine ⟨earlier.reverse, oldKey, cut, ?_, published⟩
      have sorted := guard.index.sorted
      rw [cut] at sorted
      have ascending := (List.pairwise_append.mp sorted).1
      split at allowed
      next predecessor target rest =>
        have below : predecessor < newKey := by simpa using allowed
        rw [List.reverse_cons] at ascending
        intro entry member
        rcases List.mem_append.mp (List.reverse_cons ▸ member) with first | same
        · exact ((List.pairwise_append.mp ascending).2.2 entry first _ List.mem_cons_self).trans below
        · rw [List.mem_singleton.mp same]
          exact below
      next => simp

/-- Re-keying the last node in place: its assertions hold, the node stays last,
and the routes still agree with the canonical index. -/
theorem rekeyLastNode_spec {guard : TopologyWriteGuard κ} (valid : Consistent guard) (optOut : guard.publish = false)
    (clean : guard.dirty = false) {oldKey newKey : κ} {node : NodeId} (linked : guard.index.get? oldKey = some node)
    (allowed : guard.canRekeyLastNodeWithoutPublication node newKey = true) :
    RekeyAsserts guard oldKey newKey node ∧
    (guard.rekeyLastNode oldKey newKey node).index = (guard.index.erase oldKey).insert newKey node ∧
    Consistent (guard.rekeyLastNode oldKey newKey node) := by
  obtain ⟨init, key, cut, below, _⟩ := canRekey_facts allowed
  have lastLinked : (key, node) ∈ guard.index := by rw [mem_def, cut]; simp
  have same : oldKey = key := valid.publishes.once oldKey key node (get?_eq_some.mp linked) lastLinked
  subst same
  have sorted : Ascending (init ++ [(oldKey, node)]) := cut ▸ guard.index.sorted
  have erased : (guard.index.erase oldKey).entries = init := by
    change eraseEntry oldKey guard.index.entries = init
    rw [cut, eraseEntry_hit sorted, List.append_nil]
  have moved : ((guard.index.erase oldKey).insert newKey node).entries = init ++ [(newKey, node)] := by
    change insertEntry newKey node (guard.index.erase oldKey).entries = _
    rw [erased]
    simpa using insertEntry_gap [] below (by simp)
  have gone : ∀ other, (other, node) ∉ guard.index.erase oldKey := by
    intro other member
    obtain ⟨different, present⟩ := (mem_erase ..).mp member
    exact different (valid.publishes.once other oldKey node present lastLinked)
  refine ⟨⟨optOut, clean, ?_, linked, ?_⟩, rfl, ⟨valid.publishes.wellFormed,
    (valid.publishes.once.erase oldKey).insert newKey gone, ?_,
    valid.publishes.keys⟩, fun impossible => absurd impossible (by simp [rekeyLastNode]), valid.optOut, ?_⟩
  · have last : guard.index.last? = some (oldKey, node) := by simp [last?, cut]
    simp [isLastNode, last]
  · refine get?_eq_none.mpr ?_
    intro entry member
    rw [mem_def, erased] at member
    exact (below entry member).ne
  · change Agrees ((guard.index.erase oldKey).insert newKey node).entries guard.snapshot.routes
    rw [moved]
    have agrees := valid.publishes.agrees
    rw [cut] at agrees
    generalize guard.snapshot.routes = routes at agrees
    generalize same : init ++ [(oldKey, node)] = entries at agrees
    cases agrees with
    | exact =>
      rw [← same]
      exact .stale _ _ _ _
    | stale other canonical route target =>
      obtain ⟨rfl, equal⟩ := List.append_inj' same rfl
      cases equal
      exact .stale _ _ _ _
  · intro impossible
    exact absurd (show guard.publish = true from impossible) (by simp [optOut])

theorem Consistent.dropAsserts {guard : TopologyWriteGuard κ} (valid : Consistent guard) (publishing : guard.publish = true)
    (dirty : guard.dirty = true) : ∃ routes, DropAsserts guard routes := by
  obtain ⟨routes, carried⟩ := Option.isSome_iff_exists.mp (valid.carried publishing dirty)
  have same : guard.snapshot = routes := by simp [snapshot, carried]
  have publishes := same ▸ valid.publishes
  have nodes := publishes.agrees.nodes
  have length : routes.routes.length = guard.index.entries.length := by simpa using congrArg List.length nodes
  have zipped : ∀ pair ∈ guard.index.entries.zip routes.routes, pair.2.2 = pair.1.2 ∧ pair.2 ∈ routes.routes := by
    intro pair member
    obtain ⟨position, inside, rfl⟩ := List.mem_iff_getElem.mp member
    rw [List.length_zip] at inside
    have at_ := congrArg (fun items => items[position]?) nodes
    simp only [List.getElem?_map] at at_
    rw [List.getElem?_eq_getElem (by omega), List.getElem?_eq_getElem (by omega)] at at_
    simp only [Option.map_some, Option.some.injEq] at at_
    rw [List.getElem_zip]
    exact ⟨at_, List.getElem_mem _⟩
  refine ⟨routes, carried, ?_, ?_, fun pair member => (zipped pair member).1, ?_⟩
  · rw [publishes.wellFormed.counted, length]
  · -- both sides list the distinct nodes of the index
    have listed : ∀ node, node ∈ guard.topology.publishedKeys.entries.map Prod.fst ↔ node ∈ guard.index.entries.map Prod.snd := by
      intro node
      rw [← nodes]
      constructor
      · intro member
        obtain ⟨⟨other, key⟩, present, rfl⟩ := List.mem_map.mp member
        exact List.mem_map.mpr ⟨_, (publishes.keys other key).mp present, rfl⟩
      · intro member
        obtain ⟨⟨key, other⟩, present, rfl⟩ := List.mem_map.mp member
        exact List.mem_map.mpr ⟨_, (publishes.keys other key).mpr present, rfl⟩
    have distinct : (guard.topology.publishedKeys.entries.map Prod.fst).Nodup :=
      List.pairwise_map.mpr (List.Pairwise.imp (fun below => below.ne) guard.topology.publishedKeys.sorted)
    have perm := (List.perm_ext_iff_of_nodup distinct publishes.once.nodup).mpr listed
    simpa using perm.length_eq.symm
  · intro pair member
    obtain ⟨order, routed⟩ := zipped pair member
    refine get?_eq_some.mpr ((publishes.keys _ _).mpr ?_)
    rw [← order]
    exact routed

theorem Consistent.drop {guard : TopologyWriteGuard κ} (valid : Consistent guard) :
    Publishes guard.drop.index guard.drop.published guard.drop.publishedKeys ∧ guard.drop.index = guard.index := by
  have publishes := valid.publishes
  by_cases publishing : guard.publish = true
  · by_cases dirty : guard.dirty = true
    · simpa [TopologyWriteGuard.drop, swapRoot, finish, publishing, dirty] using publishes
    · have clean : guard.dirty = false := by simpa using dirty
      rw [valid.clean clean] at publishes
      simpa [TopologyWriteGuard.drop, swapRoot, finish, publishing, clean] using publishes
  · have optOut : guard.publish = false := by simpa using publishing
    have same : guard.snapshot = guard.topology.published := by simp [snapshot, valid.optOut optOut]
    rw [same] at publishes
    simpa [TopologyWriteGuard.drop, swapRoot, finish, optOut] using publishes

end TopologyWriteGuard
end WorkTablesIndex
