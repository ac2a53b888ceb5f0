import Unrouted.Proofs.Store.Frame

/-!
Items that are listed one after another, some of them several times.  Each item is tracked on the
net of its last listing, and the nets reach to the highest one that is listed.
-/

namespace Unrouted

variable {items : List Item} {id : ItemId} {item : Item}

/-! ## Listings -/

/-- The listing of an item that counts when it is listed several times. -/
def lastListed? (items : List Item) (id : ItemId) : Option Item :=
  (items.filter fun item => decide (item.id = id)).getLast?

theorem mem_of_lastListed? (h : lastListed? items id = some item) : item ∈ items :=
  (List.mem_filter.1 (List.mem_of_getLast? h)).1

/-- The highest net of any item. -/
def highestNet (items : List Item) : Nat :=
  items.foldl (fun n item => max n item.net.toNat) 0

theorem highestNet_le {n : Nat} : highestNet items ≤ n ↔ ∀ item ∈ items, item.net.toNat ≤ n := by
  have hfold (start : Nat) : items.foldl (fun n item => max n item.net.toNat) start ≤ n ↔
      start ≤ n ∧ ∀ item ∈ items, item.net.toNat ≤ n := by
    induction items generalizing start with
    | nil => simp
    | cons item rest ih =>
      rw [List.foldl_cons, ih, List.forall_mem_cons, Nat.max_le]
      exact and_assoc
  exact (hfold 0).trans (and_iff_right (Nat.zero_le n))

theorem Board.toNat_maxNet (b : Board) : b.maxNet.toNat = highestNet b.items := by
  have hmax (n : NetCode) (item : Item) :
      (if n < item.net then item.net else n).toNat = max n.toNat item.net.toNat := by
    split
    · rename_i h
      exact (Nat.max_eq_right (Nat.le_of_lt (UInt64.lt_iff_toNat_lt.1 h))).symm
    · rename_i h
      exact (Nat.max_eq_left (Nat.not_lt.1 fun hlt => h (UInt64.lt_iff_toNat_lt.2 hlt))).symm
  exact (List.foldl_hom UInt64.toNat fun n item => (hmax n item).symm).symm

theorem Board.net_le_maxNet {b : Board} (h : item ∈ b.items) : item.net ≤ b.maxNet := by
  rw [UInt64.le_iff_toNat_le, b.toNat_maxNet]
  exact highestNet_le.1 (Nat.le_refl _) item h

theorem Board.net_ne_lastNet {b : Board} (h : b.maxNet ≠ lastNet) (hitem : item ∈ b.items) :
    item.net ≠ lastNet := by
  intro hlast
  have hle : lastNet ≤ b.maxNet := hlast ▸ net_le_maxNet hitem
  have hge : b.maxNet ≤ lastNet := UInt64.le_iff_toNat_le.2 (Nat.le_of_lt_succ b.maxNet.toNat_lt)
  exact h (UInt64.le_antisymm hge hle)

namespace Event

theorem last?_append (before events : List Event) (id : ItemId) :
    last? (before ++ events) id = (last? events id).or (last? before id) := by
  rw [last?, last?, last?, List.filter_append, List.getLast?_append]

theorem last?_map_place (items : List Item) (id : ItemId) :
    last? (items.map place) id = (lastListed? items id).map place := by
  rw [last?, lastListed?, List.filter_map, List.getLast?_map]
  rfl

end Event

/-! ## Stores -/

namespace Store

variable {s : Store}

/-- The table of the items and the nets agree that an item is on a net, or on none. -/
structure Tracks (s : Store) (id : ItemId) (net : Option NetCode) : Prop where
  itemNet : s.itemNet? id = net
  tracksItem : ∀ code, (s.net? code).any (·.tracksItem id) = true ↔ net = some code

theorem eventsOf_append (s : Store) (ops ops' : List Operation) :
    s.eventsOf (ops ++ ops') = s.eventsOf ops ++ (s.run ops).eventsOf ops' := by
  induction ops generalizing s with
  | nil => rfl
  | cons op rest ih => simp only [List.cons_append, eventsOf, ih, run, List.foldl_cons,
      List.append_assoc]

theorem Reachable.run (h : s.Reachable) (ops : List Operation) : (s.run ops).Reachable :=
  List.foldlRecOn (motive := Reachable) ops Store.apply h fun _ ht op _ => ht.apply op

theorem tracks_of_files {options : Options} {items : Table ItemId Item}
    (h : s.Files options items) (id : ItemId) : s.Tracks id (s.itemNet? id) where
  itemNet := rfl
  tracksItem code := by
    rw [Option.any_eq_true]
    constructor
    · intro hnet
      obtain ⟨net, hnet, hid⟩ := hnet
      exact h.itemNet?_eq_some.2 ((h.tracksItem_iff hnet).1 hid)
    · intro hid
      obtain ⟨net, hnet⟩ := h.net?_isSome hid
      exact ⟨net, hnet, (h.tracksItem_iff hnet).2 (h.itemNet?_eq_some.1 hid)⟩

/-- What comes before the last listing of an item does not matter. -/
theorem Reachable.tracks (h : s.Reachable) {ops : List Operation} {before : List Event}
    (hevents : s.eventsOf ops = before ++ items.map .place)
    (hitem : lastListed? items id = some item) :
    (s.run ops).Tracks id (if s.options.Routes item.net then some item.net else none) := by
  obtain ⟨options, history, rfl⟩ := h
  have hoptions := (files_run options history).options_eq
  have hfiles := files_run options (history ++ ops)
  have hnet : (Store.run (empty options) (history ++ ops)).itemNet? id =
      if options.Routes item.net then some item.net else none := by
    rw [hfiles.itemNet, tracked, eventsOf_append, hevents, Event.get?_foldl_track,
      Event.last?_append, Event.last?_append, Event.last?_map_place, hitem]
    simp only [Option.map_some, Option.some_or, Option.bind_some, Event.item?]
    split <;> rfl
  have hrun : (Store.run (empty options) history).run ops =
      Store.run (empty options) (history ++ ops) := List.foldl_append.symm
  rw [hrun, hoptions, ← hnet]
  exact tracks_of_files hfiles id

/-! ## Numbers of nets -/

theorem size_remove (s : Store) (id : ItemId) : (s.remove id).nets.size = s.nets.size := by
  unfold remove
  split
  · rfl
  · exact size_modifyNet _ _ _

theorem size_vacated (s : Store) (item : Item) : (s.vacated item).nets.size = s.nets.size := by
  unfold vacated
  split
  · exact size_remove s item.id
  · rfl

theorem size_add (s : Store) (item : Item) : (s.add item).nets.size =
    if s.options.Routes item.net then max s.nets.size (item.net.toNat + 1) else s.nets.size := by
  rcases Files.add_cases s item with ⟨hroutes, hadd⟩ | ⟨hroutes, t, hreach, hadd⟩
  · rw [hadd, if_neg hroutes, size_vacated]
  · obtain ⟨-, -, rfl⟩ := Files.reach?_eq_some_iff.1 hreach
    have hsize := size_vacated s item
    rw [hadd, if_pos hroutes]
    simp only [size_modifyNet, Array.size_append, Array.size_replicate, hsize]
    omega

theorem size_foldl_add_le {n : Nat} : (items.foldl add s).nets.size - 1 ≤ n ↔
    s.nets.size - 1 ≤ n ∧ ∀ item ∈ items, s.options.Routes item.net → item.net.toNat ≤ n := by
  induction items generalizing s with
  | nil => simp
  | cons item rest ih =>
    rw [List.foldl_cons, ih, options_add, size_add, List.forall_mem_cons, ← and_assoc]
    refine and_congr_left fun _ => ?_
    split
    · rename_i hroutes
      simp only [hroutes, forall_const]
      omega
    · rename_i hroutes
      simp only [hroutes, false_implies, and_true]

theorem size_opened {options : Options} {board : Board} (h : board.maxNet ≤ options.maxNet) :
    ((empty options).opened board).nets.size =
      if board.maxNet = lastNet then 0 else board.maxNet.toNat + 1 := by
  have htop : (if board.maxNet ≤ options.maxNet then board.maxNet else options.maxNet) =
      board.maxNet := if_pos h
  show (((empty options).reach?
    (if board.maxNet ≤ options.maxNet then board.maxNet else options.maxNet)).getD
      (empty options)).nets.size = _
  rw [htop]
  split
  · rename_i hlast
    simp [reach?, hlast, empty]
  · rename_i hlast
    simp [reach?, accepts, h, hlast, empty]

/-- If the nets of a board are accepted, its store has them all, other than the last of all
numbers. -/
theorem size_load {options : Options} {board : Board} (h : board.maxNet ≤ options.maxNet) :
    ((empty options).load board).nets.size - 1 =
      highestNet (board.items.filter fun item => decide (item.net ≠ lastNet)) := by
  have hoptions : ((empty options).opened board).options = options :=
    ((Files.empty options).opened board).options_eq
  -- Both numbers are at most `n` if no net that counts is higher.
  refine eq_of_forall_ge_iff fun n => ?_
  rw [load_eq, size_foldl_add_le, size_opened h, hoptions, highestNet_le]
  simp only [List.mem_filter, decide_eq_true_eq]
  constructor
  · intro hle item hitem
    by_cases hzero : item.net = noNet
    · rw [hzero]
      exact Nat.zero_le n
    · exact hle.2 item hitem.1
        ⟨hzero, UInt64.le_trans (Board.net_le_maxNet hitem.1) h, hitem.2⟩
  · intro hle
    refine ⟨?_, fun item hitem hroutes => hle item ⟨hitem, hroutes.2.2⟩⟩
    split
    · exact Nat.zero_le n
    · rename_i hlast
      rw [Nat.add_sub_cancel, board.toNat_maxNet, highestNet_le]
      exact fun item hitem => hle item ⟨hitem, Board.net_ne_lastNet hlast hitem⟩

end Store
end Unrouted
