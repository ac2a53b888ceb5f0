import Unrouted.Proofs.Store.Frame

/-!
Which pads a module lists.  Boards and updates give lists to modules, and the last of these
listings that concerns a module and a pad decides whether the pad is on the list of the module.
A module that is updated takes its pads from all other modules; one that comes with a board
does not.
-/

namespace Unrouted

/-- What becomes of the lists of pads that modules have. -/
inductive Listing where
  | clear
  /-- A module on a board gets its list, and the other modules keep theirs. -/
  | enter (m : ModuleId) (pads : List PadId)
  /-- A module gets a new list, and its pads leave the lists of all other modules. -/
  | renew (m : ModuleId) (pads : List PadId)
  | forget (m : ModuleId)
deriving DecidableEq

namespace Listing

variable {listings : List Listing} {l : Listing} {m n : ModuleId} {p : PadId}

/-- Whether the module lists the pad does not depend any more on what was before. -/
def decides (m : ModuleId) (p : PadId) : Listing → Bool
  | clear => true
  | enter n _ | forget n => decide (n = m)
  | renew n pads => decide (n = m) || pads.contains p

/-- The module gets a list with the pad. -/
def lists (m : ModuleId) (p : PadId) : Listing → Bool
  | enter n pads | renew n pads => decide (n = m) && pads.contains p
  | clear | forget _ => false

/-- Some module gets a list with the pad, or no module has a list any more. -/
def mentions (p : PadId) : Listing → Bool
  | clear => true
  | enter _ pads | renew _ pads => pads.contains p
  | forget _ => false

/-- The module gets a list or loses the one it had. -/
def replaces (m : ModuleId) : Listing → Bool
  | clear => true
  | enter n _ | renew n _ | forget n => decide (n = m)

/-- The module that gets a list. -/
def module? : Listing → Option ModuleId
  | enter m _ | renew m _ => some m
  | clear | forget _ => none

/-- The list that a module gets. -/
def pads : Listing → List PadId
  | enter _ pads | renew _ pads => pads
  | clear | forget _ => []

/-- The last listing decides that the module lists the pad. -/
def Holds (listings : List Listing) (m : ModuleId) (p : PadId) : Prop :=
  (listings.filter (·.decides m p)).getLast?.any (·.lists m p) = true

/-- The module that listed the pad last. -/
def lastModule? (listings : List Listing) (p : PadId) : Option ModuleId :=
  (listings.filter (·.mentions p)).getLast?.bind module?

/-- The list that the module got last, unless it was forgotten since. -/
def latest (listings : List Listing) (m : ModuleId) : List PadId :=
  ((listings.filter (·.replaces m)).getLast?.map pads).getD []

/-- What a listing does to the lists of all modules. -/
def apply (t : Table ModuleId (List PadId)) : Listing → Table ModuleId (List PadId)
  | clear => .empty
  | enter m pads => t.insert m pads
  | renew m pads =>
    (t.mapValues fun n old => if n = m then old else old.filter fun p => !pads.contains p).insert
      m pads
  | forget m => t.erase m

/-! ## One more listing -/

theorem getLast?_filter_concat {α : Type} (f : α → Bool) (xs : List α) (x : α) :
    ((xs ++ [x]).filter f).getLast? = if f x then some x else (xs.filter f).getLast? := by
  rw [List.filter_append]
  cases hx : f x with
  | true => simp [hx]
  | false => simp [hx]

theorem holds_concat :
    Holds (listings ++ [l]) m p ↔
      if l.decides m p then l.lists m p = true else Holds listings m p := by
  unfold Holds
  rw [getLast?_filter_concat]
  split <;> simp

theorem lastModule?_concat :
    lastModule? (listings ++ [l]) p =
      if l.mentions p then l.module? else lastModule? listings p := by
  unfold lastModule?
  rw [getLast?_filter_concat]
  split <;> simp

theorem latest_concat :
    latest (listings ++ [l]) m = if l.replaces m then l.pads else latest listings m := by
  unfold latest
  rw [getLast?_filter_concat]
  split <;> simp

/-- A listing that replaces the list of a module decides which pads are on it. -/
theorem decides_of_replaces (h : l.replaces m = true) (p : PadId) : l.decides m p = true := by
  cases l with
  | renew n ps => exact Bool.or_eq_true_iff.2 (.inl h)
  | clear | enter | forget => exact h

theorem lists_iff_of_replaces (h : l.replaces m = true) : l.lists m p = true ↔ p ∈ l.pads := by
  cases l with
  | clear | forget => simp [lists, pads]
  | enter n ps | renew n ps =>
    obtain rfl : n = m := of_decide_eq_true h
    simp [lists, pads]

theorem replaces_of_lists (h : l.lists m p = true) : l.replaces m = true := by
  cases l with
  | clear | forget => exact absurd h (by simp [lists])
  | enter | renew => exact (Bool.and_eq_true_iff.1 h).1

theorem mentions_of_lists (h : l.lists m p = true) : l.mentions p = true := by
  cases l with
  | clear | forget => exact absurd h (by simp [lists])
  | enter | renew => exact (Bool.and_eq_true_iff.1 h).2

theorem replaces_of_module? (h : l.module? = some m) : l.replaces m = true := by
  cases l with
  | clear | forget => exact absurd h (by simp [module?])
  | enter n ps | renew n ps => simpa [replaces, module?] using h

theorem module?_of_lists (h : l.lists m p = true) : l.module? = some m := by
  cases l with
  | clear | forget => exact absurd h (by simp [lists])
  | enter | renew => exact congrArg some (of_decide_eq_true (replaces_of_lists h))

/-- A listing without the pad that leaves the list of a module alone leaves the pad there. -/
theorem decides_eq_false (hreplaces : ¬l.replaces m = true) (hmentions : ¬l.mentions p = true) :
    ¬l.decides m p = true := by
  cases l with
  | clear => exact hreplaces
  | enter | forget => exact hreplaces
  | renew n ps => exact fun h => (Bool.or_eq_true_iff.1 h).elim hreplaces hmentions

/-- A module that was the last one to list the pad, with a list that it still has, lists it. -/
theorem holds_of_lastModule? (hlast : lastModule? listings p = some m)
    (hlatest : p ∈ latest listings m) : Holds listings m p := by
  induction listings using List.reverseRecOn with
  | nil => exact absurd hlast (by simp [lastModule?])
  | append_singleton before l ih =>
    rw [lastModule?_concat] at hlast
    rw [latest_concat] at hlatest
    rw [holds_concat]
    -- The last listing gives the module its list, or it has nothing to do with the pad.
    by_cases hreplaces : l.replaces m = true
    · rw [if_pos hreplaces] at hlatest
      rw [if_pos (decides_of_replaces hreplaces p)]
      exact (lists_iff_of_replaces hreplaces).2 hlatest
    · have hmentions : ¬l.mentions p = true := fun hmentions =>
        hreplaces (replaces_of_module? ((if_pos hmentions).symm.trans hlast))
      rw [if_neg hmentions] at hlast
      rw [if_neg hreplaces] at hlatest
      rw [if_neg (decides_eq_false hreplaces hmentions)]
      exact ih hlast hlatest

theorem Holds.mem_latest (h : Holds listings m p) : p ∈ latest listings m := by
  induction listings using List.reverseRecOn with
  | nil => exact absurd h (by simp [Holds])
  | append_singleton before l ih =>
    rw [holds_concat] at h
    rw [latest_concat]
    by_cases hreplaces : l.replaces m = true
    · rw [if_pos (decides_of_replaces hreplaces p)] at h
      rw [if_pos hreplaces]
      exact (lists_iff_of_replaces hreplaces).1 h
    · rw [if_neg hreplaces]
      split at h
      · exact absurd (replaces_of_lists h) hreplaces
      · exact ih h

/-! ## The lists themselves -/

theorem mem_apply (t : Table ModuleId (List PadId)) (l : Listing) :
    p ∈ ((apply t l).get? m).getD [] ↔
      if l.decides m p then l.lists m p = true else p ∈ (t.get? m).getD [] := by
  cases l with
  | clear => simp [apply, decides, lists]
  | enter n ps =>
    simp only [apply, Table.get?_insert, eq_comm (a := m)]
    by_cases hn : n = m
    · simp [decides, lists, hn]
    · simp [decides, hn]
  | renew n ps =>
    simp only [apply, Table.get?_insert, Table.get?_mapValues, eq_comm (a := m)]
    by_cases hn : n = m
    · simp [decides, lists, hn]
    · cases t.get? m with
      | none => simp [decides, lists, hn]
      | some old => simp [decides, lists, hn, and_comm]
  | forget n =>
    simp only [apply, Table.get?_erase, eq_comm (a := m)]
    by_cases hn : n = m
    · simp [decides, lists, hn]
    · simp [decides, hn]

/-- The last listing that concerns a module and a pad decides. -/
theorem mem_foldl_apply (listings : List Listing) (m : ModuleId) (p : PadId) :
    p ∈ ((listings.foldl apply .empty).get? m).getD [] ↔ Holds listings m p := by
  induction listings using List.reverseRecOn with
  | nil => simp [Holds]
  | append_singleton before l ih =>
    rw [List.foldl_append, List.foldl_cons, List.foldl_nil, mem_apply, holds_concat, ih]

/-! ## Owners -/

/-- A module lists a pad only if no other module has listed it since. -/
def Owned (listings : List Listing) : Prop :=
  ∀ m p, Holds listings m p → lastModule? listings p = some m

/-- Owners are kept by a listing with a pad that is on no list which the listing leaves alone. -/
theorem Owned.concat (h : Owned listings)
    (haway : ∀ m p, l.replaces m = false → l.mentions p = true → l.decides m p = false →
      ¬Holds listings m p) : Owned (listings ++ [l]) := by
  intro m p hp
  rw [holds_concat] at hp
  rw [lastModule?_concat]
  by_cases hdecides : l.decides m p = true
  · rw [if_pos hdecides] at hp
    rw [if_pos (mentions_of_lists hp)]
    exact module?_of_lists hp
  · rw [if_neg hdecides] at hp
    have hreplaces : ¬l.replaces m = true := fun hreplaces =>
      hdecides (decides_of_replaces hreplaces p)
    have hmentions : ¬l.mentions p = true := fun hmentions =>
      haway m p (Bool.eq_false_iff.2 hreplaces) hmentions (Bool.eq_false_iff.2 hdecides) hp
    rw [if_neg hmentions]
    exact h m p hp

theorem owned_clear (listings : List Listing) : Owned (listings ++ [clear]) := by
  intro m p h
  rw [holds_concat] at h
  exact absurd h (by simp [decides, lists])

theorem Owned.renew (h : Owned listings) (n : ModuleId) (ps : List PadId) :
    Owned (listings ++ [renew n ps]) :=
  h.concat fun _ _ _ hmentions hdecides =>
    absurd (Bool.or_eq_true_iff.2 (.inr hmentions)) (Bool.eq_false_iff.1 hdecides)

theorem Owned.forget (h : Owned listings) (n : ModuleId) : Owned (listings ++ [forget n]) :=
  h.concat fun _ _ _ hmentions => absurd hmentions Bool.false_ne_true

theorem Owned.enter (h : Owned listings) {n : ModuleId} {ps : List PadId}
    (hapart : ∀ m, ∀ p ∈ ps, Holds listings m p → m = n) :
    Owned (listings ++ [enter n ps]) :=
  h.concat fun m p hreplaces hmentions _ hp =>
    of_decide_eq_false hreplaces (hapart m p (List.contains_iff_mem.1 hmentions) hp).symm

/-- Modules that come one after another with lists that have no pad in common. -/
theorem owned_enter (listings : List Listing) {modules : List Module}
    (hapart : ∀ m ∈ modules, ∀ n ∈ modules, ∀ p ∈ m.pads.map Pad.id,
      p ∈ n.pads.map Pad.id → m.id = n.id) :
    let entered := listings ++ clear :: modules.map fun m => enter m.id (m.pads.map Pad.id)
    Owned entered ∧
      ∀ m p, Holds entered m p → ∃ n ∈ modules, n.id = m ∧ p ∈ n.pads.map Pad.id := by
  induction modules using List.reverseRecOn with
  | nil =>
    refine ⟨owned_clear listings, fun m p h => ?_⟩
    rw [List.map_nil, holds_concat] at h
    simp [decides, lists] at h
  | append_singleton before n ih =>
    have hbefore : ∀ m ∈ before, m ∈ before ++ [n] := fun m hm => List.mem_append_left _ hm
    obtain ⟨howned, hentered⟩ := ih fun m hm n hn => hapart m (hbefore m hm) n (hbefore n hn)
    rw [List.map_append, List.map_singleton, ← List.cons_append, ← List.append_assoc]
    refine ⟨howned.enter fun m p hp hold => ?_, fun m p h => ?_⟩
    · obtain ⟨m, hm, rfl, hmp⟩ := hentered m p hold
      exact hapart m (hbefore m hm) n (by simp) p hmp hp
    · rw [holds_concat] at h
      by_cases hn : n.id = m
      · exact ⟨n, by simp, hn, by simpa [decides, lists, hn] using h⟩
      · obtain ⟨m, hm, hid, hmp⟩ := hentered m p (by simpa [decides, hn] using h)
        exact ⟨m, hbefore m hm, hid, hmp⟩

end Listing

/-- No pad stands under the numbers of two modules. -/
def Board.Apart (board : Board) : Prop :=
  ∀ m ∈ board.modules, ∀ n ∈ board.modules, ∀ p ∈ m.pads.map Pad.id,
    p ∈ n.pads.map Pad.id → m.id = n.id

namespace Store

variable {s : Store} {history : List Operation} {op : Operation} {m : ModuleId} {p : PadId}

/-- The pads that a module lists. -/
def padsOf (s : Store) (m : ModuleId) : List PadId := (s.modules.get? m).getD []

def Operation.listings : Operation → List Listing
  | .load board => .clear :: board.modules.map fun m => .enter m.id (m.pads.map Pad.id)
  | .updateModule m => [.renew m.id (m.pads.map Pad.id)]
  | .removeModule id => [.forget id]
  | .add _ | .update _ | .remove _ | .recalculate _ | .mark _ | .markModule _ | .clearMarks
  | .setVisible _ _ => []

/-- What happens to the lists of modules in a history. -/
def listings (history : List Operation) : List Listing := history.flatMap Operation.listings

def Operation.board? : Operation → Option Board
  | .load board => some board
  | _ => none

/-- The board that was loaded last. -/
def lastBoard? (history : List Operation) : Option Board :=
  (history.filterMap Operation.board?).getLast?

/-! ## The lists after a history -/

theorem modules_reach (s : Store) (code : NetCode) :
    ((s.reach? code).getD s).modules = s.modules := by
  unfold reach?
  split <;> rfl

theorem modules_load (s : Store) (board : Board) :
    (s.load board).modules =
      (board.modules.map fun m => Listing.enter m.id (m.pads.map Pad.id)).foldl Listing.apply
        .empty := by
  rw [load_eq, modules_foldl_add, List.foldl_map]
  exact congrArg (board.modules.foldl _) (modules_reach (empty s.options) _)

/-- The pads on the list of a module are taken out one after another. -/
theorem removeModule_eq (s : Store) (m : ModuleId) :
    s.removeModule m =
      ((s.padsOf m).map ItemId.pad).foldl remove { s with modules := s.modules.erase m } := by
  cases hm : s.modules.get? m with
  | none =>
    have herase : s.modules.erase m = s.modules := Table.erase_of_get?_eq_none hm
    simp [removeModule, padsOf, hm, herase]
  | some pads => simp [removeModule, padsOf, hm, List.foldl_map]

theorem modules_removeModule (s : Store) (m : ModuleId) :
    (s.removeModule m).modules = s.modules.erase m := by
  rw [removeModule_eq, modules_foldl_remove]

theorem modules_mark (s : Store) (id : ItemId) : (s.mark id).modules = s.modules := by
  unfold mark
  split <;> rfl

theorem modules_apply (s : Store) (op : Operation) :
    (s.apply op).modules = op.listings.foldl Listing.apply s.modules := by
  cases op with
  | load board => exact modules_load s board
  | add item => exact modules_add s item
  | update item => exact modules_update s item
  | remove id => exact modules_remove s id
  | updateModule m =>
    rw [apply, updateModule_eq, modules_foldl_update, modules_foldl_remove]
    rfl
  | removeModule id => exact modules_removeModule s id
  | recalculate net =>
    cases net with
    | some code => rfl
    | none =>
      rw [apply, recalculate_none]
      rfl
  | mark id => exact modules_mark s id
  | markModule id =>
    exact List.foldlRecOn (motive := fun t : Store => t.modules = s.modules) _ _ rfl
      fun t ht p _ => (modules_mark t (.pad p)).trans ht
  | clearMarks => rfl
  | setVisible code visible => rfl

theorem modules_run (s : Store) (history : List Operation) :
    (s.run history).modules = (listings history).foldl Listing.apply s.modules := by
  induction history generalizing s with
  | nil => rfl
  | cons op rest ih =>
    rw [listings, List.flatMap_cons, List.foldl_append, ← modules_apply]
    exact ih (s.apply op)

theorem mem_padsOf_run (options : Options) (history : List Operation) (m : ModuleId) (p : PadId) :
    p ∈ (run (empty options) history).padsOf m ↔ Listing.Holds (listings history) m p := by
  rw [padsOf, modules_run]
  exact Listing.mem_foldl_apply (listings history) m p

/-- The pads on the list are taken out, and nothing else is. -/
theorem itemNet?_removeModule (s : Store) (m : ModuleId) (id : ItemId) :
    (s.removeModule m).itemNet? id =
      if id ∈ (s.padsOf m).map ItemId.pad then none else s.itemNet? id := by
  rw [removeModule_eq, itemNet?_foldl_remove]
  rfl

/-! ## Owners after a history -/

theorem listings_concat (history : List Operation) (op : Operation) :
    listings (history ++ [op]) = listings history ++ op.listings := by
  simp [listings]

theorem lastBoard?_concat (h : op.board? = none) :
    lastBoard? (history ++ [op]) = lastBoard? history := by
  simp [lastBoard?, h]

theorem owned_listings (h : ∀ board, lastBoard? history = some board → board.Apart) :
    Listing.Owned (listings history) := by
  induction history using List.reverseRecOn with
  | nil => exact fun m p h => absurd h (by simp [listings, Listing.Holds])
  | append_singleton before op ih =>
    have hbefore (hop : op.board? = none) : Listing.Owned (listings before) :=
      ih fun board hboard => h board ((lastBoard?_concat hop).trans hboard)
    rw [listings_concat]
    cases op with
    -- A board makes a new start, so what was before need not be owned.
    | load board =>
      have hapart : board.Apart := h board (by simp [lastBoard?, Operation.board?])
      exact (Listing.owned_enter (listings before) hapart).1
    | updateModule m => exact (hbefore rfl).renew m.id (m.pads.map Pad.id)
    | removeModule id => exact (hbefore rfl).forget id
    | _ =>
      simp only [Operation.listings, List.append_nil]
      exact hbefore rfl

/-- What the owner of a pad means for a store: the module that listed the pad last, with a list
that it still has, lists the pad, and no other module does.  A module that is taken out takes
its own pads with it and no others. -/
structure Owners (s : Store) (listings : List Listing) : Prop where
  owner : ∀ m p, p ∈ s.padsOf m ↔
    Listing.lastModule? listings p = some m ∧ p ∈ Listing.latest listings m
  alone : ∀ m n p, p ∈ s.padsOf m → p ∈ s.padsOf n → m = n
  untracks : ∀ m p, (s.itemNet? (.pad p)).isSome = true →
    ((s.removeModule m).itemNet? (.pad p) = none ↔
      Listing.lastModule? listings p = some m ∧ p ∈ Listing.latest listings m)
  spares : ∀ m id, (∀ p, id = .pad p → Listing.lastModule? listings p ≠ some m) →
    (s.removeModule m).itemNet? id = s.itemNet? id

theorem Owners.of_iff {listings : List Listing}
    (h : ∀ m p, p ∈ s.padsOf m ↔
      Listing.lastModule? listings p = some m ∧ p ∈ Listing.latest listings m) :
    s.Owners listings where
  owner := h
  alone m n p hm hn := Option.some.inj (((h m p).1 hm).1.symm.trans ((h n p).1 hn).1)
  untracks m p htracked := by
    rw [itemNet?_removeModule, ← h m p]
    by_cases hp : p ∈ s.padsOf m
    · simp [hp]
    · simpa [hp] using Option.ne_none_iff_isSome.2 htracked
  spares m id hother := by
    rw [itemNet?_removeModule, if_neg]
    intro hid
    obtain ⟨p, hp, rfl⟩ := List.mem_map.1 hid
    exact hother p rfl ((h m p).1 hp).1

/-- After every history a module lists a pad exactly if the last listing that concerns the two
says so, and a module that is taken out takes the pads on its list with it.  Each pad has the
owner that it should have if on the board that was loaded last no pad stands under the numbers
of two modules. -/
theorem owners_run (options : Options) (history : List Operation) :
    let s := run (empty options) history
    (∀ m p, p ∈ s.padsOf m ↔ Listing.Holds (listings history) m p) ∧
    (∀ m id, (s.removeModule m).itemNet? id =
      if id ∈ (s.padsOf m).map ItemId.pad then none else s.itemNet? id) ∧
    ((∀ board, lastBoard? history = some board → board.Apart) → s.Owners (listings history)) := by
  refine ⟨mem_padsOf_run options history, itemNet?_removeModule _, fun hapart => ?_⟩
  refine Owners.of_iff fun m p => ?_
  rw [mem_padsOf_run]
  constructor
  · intro h
    exact ⟨owned_listings hapart m p h, h.mem_latest⟩
  · intro h
    exact Listing.holds_of_lastModule? h.1 h.2

/-- A board that lists one pad in two modules, and a module in two places. -/
def sharedPads : Board :=
  { vias := [], tracks := [], zones := [],
    modules :=
      [{ id := 1, pads := [{ id := 5, net := 1, position := ⟨0, 0⟩ }] },
        { id := 2, pads := [{ id := 5, net := 1, position := ⟨5, 0⟩ }] },
        { id := 3, pads := [{ id := 7, net := 2, position := ⟨0, 0⟩ }] },
        { id := 3, pads := [{ id := 8, net := 2, position := ⟨5, 0⟩ }] }] }

/-- The second module listed the first pad last, but the first one lists it too and takes it
out.  The third module listed the second pad last, but leaves it where it is. -/
theorem not_owners_sharedPads :
    let history := [Operation.load sharedPads]
    let s := run (empty .default) history
    5 ∈ s.padsOf 1 ∧ 5 ∈ s.padsOf 2 ∧ Listing.lastModule? (listings history) 5 = some 2 ∧
      s.itemNet? (.pad 5) = some 1 ∧ (s.removeModule 1).itemNet? (.pad 5) = none ∧
      Listing.lastModule? (listings history) 7 = some 3 ∧ s.itemNet? (.pad 7) = some 2 ∧
      (s.removeModule 3).itemNet? (.pad 7) = some 2 := by
  decide +kernel

def twoModules : Board :=
  { vias := [], tracks := [], zones := [],
    modules :=
      [{ id := 1,
         pads := [{ id := 5, net := 1, position := ⟨0, 0⟩ },
           { id := 6, net := 1, position := ⟨5, 0⟩ }] },
        { id := 2, pads := [{ id := 7, net := 2, position := ⟨9, 0⟩ }] }] }

/-- A pad goes from the first module to the second. -/
def handedOver : List Operation :=
  [.load twoModules, .updateModule { id := 2, pads := [{ id := 6, net := 1, position := ⟨7, 0⟩ }] }]

theorem owners_handedOver :
    let s := run (empty .default) handedOver
    (∀ board, lastBoard? handedOver = some board → board.Apart) ∧ s.Owners (listings handedOver) ∧
      s.padsOf 1 = [5] ∧ s.padsOf 2 = [6] ∧
      (s.removeModule 1).itemNet? (.pad 6) = some 1 ∧ s.itemNet? (.pad 7) = none := by
  have hapart : ∀ board, lastBoard? handedOver = some board → board.Apart := by
    intro board hboard
    obtain rfl : twoModules = board := Option.some.inj hboard
    simp [Board.Apart, twoModules]
  exact ⟨hapart, (owners_run .default handedOver).2.2 hapart, by decide +kernel⟩

end Store
end Unrouted
