import ResolverLog.Proofs.Tally

/-!
# Tallies as a list and a table

A tally can be kept as a linked list of the keys, the latest counted first, and a
table beside it that knows for each key its count and its node of the list. A
count finds the key in the table and moves its node to the front, wherever it
is; a key that has to go is read off the last node.

Each of the two could be wrong about the other: a node that the table names may
be missing from the list, and the list may have no last node. Neither ever
happens. List and table always hold the same keys, each once, and what they hold
is the tally.

## Implementation notes

A node has a name that is never used again, as an address is not while it is in
use. Following the table to a node that is not there gives `none`. The order of
the table carries no meaning.
-/

namespace ResolverLog

open Counts

/-- What the table knows of a key. -/
structure Slot where
  count : UInt64
  /-- The name of the node of the key. -/
  node : Nat
  deriving DecidableEq, Repr

/-- A tally as a list and a table. -/
structure LinkedTally where
  capacity : Nat
  /-- The nodes of the list, each with its name and its key, the latest counted first. -/
  nodes : List (Nat × Bytes)
  slots : List (Bytes × Slot)
  /-- The name of the next node. -/
  fresh : Nat
  evictions : Nat
  deriving DecidableEq, Repr

namespace LinkedTally

/-- No node and no slot; a capacity of zero counts as one. -/
def empty (capacity : Nat) : LinkedTally :=
  ⟨max 1 capacity, [], [], 0, 0⟩

/-- The count of a key, zero for a key not held. -/
def get (l : LinkedTally) (key : Bytes) : UInt64 :=
  ((l.slots.lookup key).map Slot.count).getD 0

/-- The table without a key. -/
def unslot (slots : List (Bytes × Slot)) (key : Bytes) : List (Bytes × Slot) :=
  slots.filter fun pair => pair.1 != key

/-- Moves the node of this name to the front. -/
def splice? (nodes : List (Nat × Bytes)) (name : Nat) : Option (List (Nat × Bytes)) :=
  (nodes.find? fun node => node.1 == name).map fun node =>
    node :: nodes.filter fun node => node.1 != name

/-- Drops the last node, and its key from the table. -/
def dropLast? (l : LinkedTally) : Option LinkedTally :=
  l.nodes.getLast?.map fun last =>
    { l with
      nodes := l.nodes.dropLast
      slots := unslot l.slots last.2
      evictions := l.evictions + 1 }

/-- Puts a new key in front. -/
def pushFront (l : LinkedTally) (key : Bytes) (n : UInt64) : LinkedTally :=
  { l with
    nodes := (l.fresh, key) :: l.nodes
    slots := (key, ⟨n, l.fresh⟩) :: l.slots
    fresh := l.fresh + 1 }

/-- Adds `n` to the count of a key and makes it the latest. -/
def count? (l : LinkedTally) (key : Bytes) (n : UInt64) : Option LinkedTally :=
  match l.slots.lookup key with
  | some slot =>
    (splice? l.nodes slot.node).map fun nodes =>
      { l with nodes, slots := (key, { slot with count := slot.count + n }) :: unslot l.slots key }
  | none =>
    if l.capacity ≤ l.slots.length then l.dropLast?.map fun l => l.pushFront key n
    else some (l.pushFront key n)

/-- Forgets every key; the number of evictions stays. -/
def clear (l : LinkedTally) : LinkedTally :=
  { l with nodes := [], slots := [] }

/-! ## List, table and tally -/

/-- The counts of a table. -/
def countsOf (slots : List (Bytes × Slot)) : Counts :=
  slots.map fun pair => (pair.1, pair.2.count)

/-- The nodes that a table names, with their keys. -/
def links (slots : List (Bytes × Slot)) : List (Nat × Bytes) :=
  slots.map fun pair => (pair.2.node, pair.1)

/-- The nodes of the list are those that the table names, each key and each node is there once, and
together list and table are the tally. -/
structure Mirrors (l : LinkedTally) (t : Tally) : Prop where
  capacity_eq : l.capacity = t.capacity
  evictions_eq : l.evictions = t.evictions
  keys_eq : l.nodes.map Prod.snd = keys t.counts
  counts_perm : (countsOf l.slots).Perm t.counts
  links_perm : (links l.slots).Perm l.nodes
  nodup_keys : (keys t.counts).Nodup
  nodup_nodes : (l.nodes.map Prod.fst).Nodup
  lt_fresh : ∀ node ∈ l.nodes, node.1 < l.fresh

variable {l : LinkedTally} {t : Tally} {key k : Bytes} {n : UInt64} {slot : Slot}
  {nodes : List (Nat × Bytes)} {slots : List (Bytes × Slot)} {name : Nat}

theorem lookup_countsOf (slots : List (Bytes × Slot)) (key : Bytes) :
    (countsOf slots).lookup key = (slots.lookup key).map Slot.count := by
  induction slots with
  | nil => rfl
  | cons pair slots ih =>
      rw [countsOf, List.map_cons, List.lookup_cons, List.lookup_cons]
      by_cases hkey : key = pair.1
      · rw [hkey, BEq.rfl]
        rfl
      · rw [beq_false_of_ne hkey]
        exact ih

theorem countsOf_unslot (slots : List (Bytes × Slot)) (key : Bytes) :
    countsOf (unslot slots key) = (countsOf slots).filter fun pair => pair.1 != key := by
  rw [countsOf, countsOf, unslot, List.filter_map]
  rfl

theorem links_unslot (slots : List (Bytes × Slot)) (key : Bytes) :
    links (unslot slots key) = (links slots).filter fun node => node.2 != key := by
  rw [links, links, unslot, List.filter_map]
  rfl

/-- A node that is in the list is found by its name. -/
theorem find?_eq_some (hnodup : (nodes.map Prod.fst).Nodup) (hmem : (name, key) ∈ nodes) :
    (nodes.find? fun node => node.1 == name) = some (name, key) := by
  obtain ⟨before, after, rfl⟩ := List.append_of_mem hmem
  rw [List.map_append, List.nodup_append] at hnodup
  have hbefore : (before.find? fun node => node.1 == name) = none := by
    rw [List.find?_eq_none]
    intro node hnode
    simpa using hnodup.2.2 node.1 (List.mem_map_of_mem hnode) name (by simp)
  rw [List.find?_append, hbefore, Option.none_or, List.find?_cons, BEq.rfl]

/-- Without the node of a key a list is without the key. -/
theorem filter_name_eq (hnodup : (nodes.map Prod.fst).Nodup) (hkeys : (nodes.map Prod.snd).Nodup)
    (hmem : (name, key) ∈ nodes) :
    (nodes.filter fun node => node.1 != name) = nodes.filter fun node => node.2 != key := by
  apply List.filter_congr
  intro node hnode
  rw [Bool.eq_iff_iff, bne_iff_ne, bne_iff_ne, not_iff_not]
  constructor
  · intro heq
    exact congrArg Prod.snd (List.inj_on_of_nodup_map hnodup hnode hmem heq)
  · intro heq
    exact congrArg Prod.fst (List.inj_on_of_nodup_map hkeys hnode hmem heq)

namespace Mirrors

theorem empty (capacity : Nat) : Mirrors (.empty capacity) (.empty capacity) :=
  ⟨rfl, rfl, rfl, List.Perm.refl _, List.Perm.refl _, List.nodup_nil, List.nodup_nil,
    List.forall_mem_nil _⟩

theorem clear (h : Mirrors l t) : Mirrors l.clear t.clear :=
  ⟨h.capacity_eq, h.evictions_eq, rfl, List.Perm.refl _, List.Perm.refl _, List.nodup_nil,
    List.nodup_nil, List.forall_mem_nil _⟩

theorem nodup_snd (h : Mirrors l t) : (l.nodes.map Prod.snd).Nodup := by
  rw [h.keys_eq]
  exact h.nodup_keys

/-- The table has the keys of the list. -/
theorem keys_perm (h : Mirrors l t) : (l.slots.map Prod.fst).Perm (l.nodes.map Prod.snd) := by
  have hkeys := h.links_perm.map Prod.snd
  rw [links, List.map_map] at hkeys
  exact hkeys

theorem length_slots (h : Mirrors l t) : l.slots.length = t.size := by
  have hlength := h.counts_perm.length_eq
  rw [countsOf, List.length_map] at hlength
  exact hlength

theorem lookup_eq (h : Mirrors l t) (key : Bytes) :
    (l.slots.lookup key).map Slot.count = t.counts.lookup key := by
  rw [← lookup_countsOf, ← Lookup.lookup_eq_of_perm h.nodup_keys h.counts_perm.symm]

theorem get_eq (h : Mirrors l t) (key : Bytes) : l.get key = t.get key := by
  rw [get, h.lookup_eq]
  rfl

/-- A slot names the node of its key. -/
theorem mem_nodes (h : Mirrors l t) (hslot : l.slots.lookup key = some slot) :
    (slot.node, key) ∈ l.nodes :=
  h.links_perm.subset (List.mem_map.mpr ⟨(key, slot), Lookup.mem_of_lookup hslot, rfl⟩)

/-- Without a key in the list and in the table there is no such key in the tally. -/
theorem without (h : Mirrors l t) (key : Bytes) :
    Mirrors
      { l with nodes := l.nodes.filter fun node => node.2 != key, slots := unslot l.slots key }
      { t with counts := t.counts.filter fun pair => pair.1 != key } := by
  have hnodes : (l.nodes.filter fun node => node.2 != key).map Prod.snd
      = (l.nodes.map Prod.snd).filter (· != key) := by
    rw [List.filter_map]
    rfl
  have hcounts : keys (t.counts.filter fun pair => pair.1 != key)
      = (keys t.counts).filter (· != key) := Tally.keys_filter t.counts (· != key)
  refine ⟨h.capacity_eq, h.evictions_eq, ?_, ?_, ?_, ?_, ?_, ?_⟩
  · rw [hcounts, hnodes, h.keys_eq]
  · rw [countsOf_unslot]
    exact h.counts_perm.filter _
  · rw [links_unslot]
    exact h.links_perm.filter _
  · rw [hcounts]
    exact h.nodup_keys.filter _
  · exact h.nodup_nodes.sublist (List.filter_sublist.map _)
  · intro node hnode
    exact h.lt_fresh node (List.mem_of_mem_filter hnode)

/-- A new key is put in front of all. -/
theorem cons (h : Mirrors l t) (hkey : key ∉ keys t.counts) (hname : name ∉ l.nodes.map Prod.fst)
    {fresh : Nat} (hlt : name < fresh) (hle : l.fresh ≤ fresh) (n : UInt64) :
    Mirrors { l with nodes := (name, key) :: l.nodes, slots := (key, ⟨n, name⟩) :: l.slots, fresh }
      { t with counts := (key, n) :: t.counts } := by
  refine ⟨h.capacity_eq, h.evictions_eq, congrArg (key :: ·) h.keys_eq, h.counts_perm.cons _,
    h.links_perm.cons _, List.nodup_cons.mpr ⟨hkey, h.nodup_keys⟩,
    List.nodup_cons.mpr ⟨hname, h.nodup_nodes⟩, ?_⟩
  intro node hnode
  rcases List.mem_cons.mp hnode with rfl | hnode
  · exact hlt
  · exact Nat.lt_of_lt_of_le (h.lt_fresh node hnode) hle

/-- A key that is held is moved to the front with its node. -/
theorem hit (h : Mirrors l t) (hslot : l.slots.lookup key = some slot) (n : UInt64) :
    ∃ l', l.count? key n = some l' ∧ Mirrors l' (t.count key n) := by
  have hmem := h.mem_nodes hslot
  have hlookup : t.counts.lookup key = some slot.count := by
    rw [← h.lookup_eq, hslot]
    rfl
  have hcount : t.count key n = { t with
      counts := (key, slot.count + n) :: t.counts.filter fun pair => pair.1 != key } := by
    rw [Tally.count, hlookup, Tally.eraseP_eq_filter h.nodup_keys]
  have hspliced : splice? l.nodes slot.node
      = some ((slot.node, key) :: l.nodes.filter fun node => node.2 != key) := by
    rw [splice?, find?_eq_some h.nodup_nodes hmem, Option.map_some,
      filter_name_eq h.nodup_nodes h.nodup_snd hmem]
  refine ⟨_, by rw [count?, hslot]; simp only [hspliced]; rfl, ?_⟩
  rw [hcount]
  refine (h.without key).cons ?_ ?_ (h.lt_fresh _ hmem) (Nat.le_refl _) _
  · intro hkey
    obtain ⟨pair, hpair, heq⟩ := List.mem_map.mp hkey
    exact bne_iff_ne.mp (List.mem_filter.mp hpair).2 heq
  · rw [← filter_name_eq h.nodup_nodes h.nodup_snd hmem]
    simp

/-- A new key comes in front of what is left when there is room. -/
theorem pushFront (h : Mirrors l t) (hkey : key ∉ keys t.counts) (n : UInt64) :
    Mirrors (l.pushFront key n) { t with counts := (key, n) :: t.counts } := by
  refine h.cons hkey ?_ (Nat.lt_succ_self _) (Nat.le_succ _) n
  intro hmem
  obtain ⟨node, hnode, heq⟩ := List.mem_map.mp hmem
  exact Nat.ne_of_lt (h.lt_fresh node hnode) heq

/-- The last node has the key that goes. -/
theorem dropLast (h : Mirrors l t) (hne : t.counts ≠ []) :
    ∃ l', l.dropLast? = some l' ∧
      Mirrors l' { t with counts := t.counts.dropLast, evictions := t.evictions + 1 } := by
  obtain ⟨before, last, hcounts⟩ := (List.eq_nil_or_concat' t.counts).resolve_left hne
  have hkeys := h.keys_eq
  rw [hcounts, keys, List.map_append] at hkeys
  obtain ⟨front, back, hnodes, hfront, hback⟩ := List.map_eq_append_iff.mp hkeys
  obtain ⟨node, rfl, hnode⟩ := List.map_eq_singleton_iff.mp hback
  have hwithout := h.without last.1
  have hnodup := h.nodup_keys
  have hnodup' := h.nodup_snd
  rw [hcounts] at hnodup
  rw [hnodes] at hnodup'
  rw [hcounts, Tally.filter_ne_last hnodup, hnodes, ← hnode, Tally.filter_ne_last hnodup']
    at hwithout
  refine ⟨_, by rw [dropLast?, hnodes, List.getLast?_concat]; rfl, ?_⟩
  rw [hcounts, List.dropLast_concat, List.dropLast_concat]
  exact ⟨hwithout.capacity_eq, congrArg (· + 1) h.evictions_eq, hwithout.keys_eq,
    hwithout.counts_perm, hwithout.links_perm, hwithout.nodup_keys, hwithout.nodup_nodes,
    hwithout.lt_fresh⟩

/-- Counting finds every node that it follows, and list and table are the tally again. -/
theorem count (h : Mirrors l t) (hpos : 0 < t.capacity) (key : Bytes) (n : UInt64) :
    ∃ l', l.count? key n = some l' ∧ Mirrors l' (t.count key n) := by
  cases hslot : l.slots.lookup key with
  | some slot => exact h.hit hslot n
  | none =>
      have hlookup : t.counts.lookup key = none := by
        rw [← h.lookup_eq, hslot]
        rfl
      have hnew : key ∉ keys t.counts := Lookup.lookup_eq_none_iff_notMem.mp hlookup
      rw [count?, Tally.count, hslot, hlookup, h.capacity_eq, h.length_slots]
      simp only
      split
      · rename_i hfull
        have hne : t.counts ≠ [] := List.ne_nil_of_length_pos (Nat.lt_of_lt_of_le hpos hfull)
        obtain ⟨l', hdropped, hl'⟩ := h.dropLast hne
        refine ⟨_, by rw [hdropped]; rfl, hl'.pushFront ?_ n⟩
        intro hmem
        exact hnew (((List.dropLast_sublist t.counts).map Prod.fst).subset hmem)
      · exact ⟨_, rfl, h.pushFront hnew n⟩

end Mirrors

end LinkedTally

end ResolverLog
