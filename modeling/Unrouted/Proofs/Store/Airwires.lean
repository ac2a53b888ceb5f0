import Unrouted.Proofs.Net.Lines
import Unrouted.Proofs.Store.NetHistories

/-!
The airwires of a store.  They are listed net by net, and what is listed for a visible net is
what the net shows, whether it is up to date or not.
-/

namespace Unrouted

/-! ## The airwires of one net -/

namespace Net

variable {net : Net} {code : NetCode}

theorem airwires_of_visible (h : net.visible = true) (code : NetCode) :
    net.airwires code = net.steadyLinks.map (.ofLink code false) ++
      net.simpleLinks.map (.ofLink code true) := by
  rw [airwires, if_pos h]

theorem of_mem_airwires {w : Airwire} (h : w ∈ net.airwires code) :
    w.net = code ∧ net.visible = true := by
  unfold airwires at h
  split at h
  · rename_i hvisible
    rw [List.mem_append, List.mem_map, List.mem_map] at h
    rcases h with ⟨l, -, rfl⟩ | ⟨l, -, rfl⟩ <;> exact ⟨rfl, hvisible⟩
  · exact absurd h List.not_mem_nil

/-- Lines of marked nodes come after the others. -/
theorem pairwise_airwires (net : Net) (code : NetCode) :
    (net.airwires code).Pairwise fun w w' => w.simple = true → w'.simple = true := by
  have alike (simple : Bool) (links : List MissingLink) :
      (links.map (Airwire.ofLink code simple)).Pairwise fun w w' =>
        w.simple = true → w'.simple = true :=
    List.pairwise_map.2 (List.pairwise_iff_getElem.2 fun _ _ _ _ _ h => h)
  unfold airwires
  split
  · refine List.pairwise_append.2 ⟨alike false _, alike true _, fun w _ w' hw' _ => ?_⟩
    obtain ⟨l, -, rfl⟩ := List.mem_map.1 hw'
    rfl
  · exact List.Pairwise.nil

end Net

namespace Store

variable {options : Options} {s : Store} {items : Table ItemId Item} {code : NetCode}
  {net : Net}

/-! ## Nets and their numbers -/

/-- Nets are no more than there are numbers of 64 bits. -/
theorem Files.size_le (h : s.Files options items) : s.nets.size ≤ 2 ^ 64 :=
  Nat.le_trans h.size options.maxNet.toNat_lt

theorem mem_numberedNets (hsize : s.nets.size ≤ 2 ^ 64) :
    (code, net) ∈ s.numberedNets ↔ code ≠ noNet ∧ s.net? code = some net := by
  have hplace (i : Nat) :
      (net, i) ∈ s.nets.toList.zipIdx.drop 1 ↔ 0 < i ∧ s.nets[i]? = some net := by
    simp only [List.mem_iff_getElem?, List.getElem?_drop, List.getElem?_zipIdx,
      Array.getElem?_toList, Option.map_eq_some_iff, Prod.mk.injEq, Nat.zero_add]
    constructor
    · intro hthere
      obtain ⟨k, net', hnet, rfl, rfl⟩ := hthere
      exact ⟨by omega, hnet⟩
    · intro hthere
      obtain ⟨hpos, hnet⟩ := hthere
      have hi : 1 + (i - 1) = i := by omega
      exact ⟨i - 1, net, by rwa [hi], rfl, hi⟩
  have hzero : code ≠ noNet ↔ 0 < code.toNat := by
    rw [ne_eq, ← UInt64.toNat_inj, Nat.pos_iff_ne_zero]
    rfl
  simp only [numberedNets, List.mem_map, Prod.mk.injEq]
  constructor
  · intro hlisted
    obtain ⟨⟨net', i⟩, hmem, rfl, rfl⟩ := hlisted
    obtain ⟨hpos, hnet⟩ := (hplace i).1 hmem
    have hlt : i < 2 ^ 64 := Nat.lt_of_lt_of_le (Array.getElem?_eq_some_iff.1 hnet).1 hsize
    have hnat : (UInt64.ofNat i).toNat = i := UInt64.toNat_ofNat_of_lt' hlt
    rw [hzero, net?, hnat]
    exact ⟨hpos, hnet⟩
  · intro hlisted
    obtain ⟨hcode, hnet⟩ := hlisted
    exact ⟨(net, code.toNat), (hplace _).2 ⟨hzero.1 hcode, hnet⟩, UInt64.ofNat_toNat, rfl⟩

theorem pairwise_numberedNets (hsize : s.nets.size ≤ 2 ^ 64) :
    s.numberedNets.Pairwise fun e e' => e.1 < e'.1 := by
  have hplaces : s.nets.toList.zipIdx.Pairwise fun e e' => e.2 < e'.2 ∧ e'.2 < 2 ^ 64 := by
    rw [List.pairwise_iff_getElem]
    intro i j hi hj hij
    rw [List.length_zipIdx, Array.length_toList] at hj
    rw [List.getElem_zipIdx, List.getElem_zipIdx]
    simp only
    omega
  rw [numberedNets, List.pairwise_map]
  refine (hplaces.sublist (List.drop_sublist 1 _)).imp fun h => ?_
  obtain ⟨hlt, hlimit⟩ := h
  rw [UInt64.lt_iff_toNat_lt, UInt64.toNat_ofNat_of_lt' (Nat.lt_trans hlt hlimit),
    UInt64.toNat_ofNat_of_lt' hlimit]
  exact hlt

/-- Among the airwires, those of a net are the ones that the net has. -/
theorem filter_airwires (hsize : s.nets.size ≤ 2 ^ 64) (hcode : code ≠ noNet)
    (hnet : s.net? code = some net) :
    s.airwires.filter (fun w => decide (w.net = code)) = net.airwires code := by
  obtain ⟨before, after, hsplit⟩ := List.append_of_mem ((mem_numberedNets hsize).2 ⟨hcode, hnet⟩)
  have hordered := pairwise_numberedNets hsize
  rw [hsplit, List.pairwise_append, List.pairwise_cons] at hordered
  obtain ⟨-, ⟨hafter, -⟩, hbefore⟩ := hordered
  have hothers (e : NetCode × Net) (he : e.1 ≠ code) :
      (e.2.airwires e.1).filter (fun w => decide (w.net = code)) = [] := by
    rw [List.filter_eq_nil_iff]
    intro w hw
    rw [(Net.of_mem_airwires hw).1]
    simpa using he
  have hown : (net.airwires code).filter (fun w => decide (w.net = code)) = net.airwires code :=
    List.filter_eq_self.2 fun w hw => decide_eq_true (Net.of_mem_airwires hw).1
  have hnone {es : List (NetCode × Net)} (hes : ∀ e ∈ es, e.1 ≠ code) :
      es.flatMap (fun e => (e.2.airwires e.1).filter fun w => decide (w.net = code)) = [] :=
    List.flatMap_eq_nil_iff.2 fun e he => hothers e (hes e he)
  rw [airwires, hsplit, List.filter_flatMap, List.flatMap_append, List.flatMap_cons, hown,
    hnone fun e he => UInt64.ne_of_lt (hbefore e he _ List.mem_cons_self),
    hnone fun e he => (UInt64.ne_of_lt (hafter e he)).symm, List.nil_append, List.append_nil]

/-! ## The airwires of all nets -/

/-- The airwires are ordered by their nets, in each net those of marked nodes last.  They are
wires of visible nets other than net zero, and each of these nets has the wires that it
shows. -/
structure Drawn (s : Store) : Prop where
  ordered : s.airwires.Pairwise fun w w' =>
    w.net < w'.net ∨ w.net = w'.net ∧ (w.simple = true → w'.simple = true)
  visible : ∀ w ∈ s.airwires, w.net ≠ noNet ∧ ∃ net, s.net? w.net = some net ∧ net.visible = true
  shown : ∀ code net, code ≠ noNet → s.net? code = some net → net.visible = true →
    ∃ steady simple, s.airwires.filter (fun w => decide (w.net = code)) = steady ++ simple ∧
      net.Shown code steady simple

theorem pairwise_airwires (hsize : s.nets.size ≤ 2 ^ 64) :
    s.airwires.Pairwise fun w w' =>
      w.net < w'.net ∨ w.net = w'.net ∧ (w.simple = true → w'.simple = true) := by
  rw [airwires, List.pairwise_flatMap]
  constructor
  · intro e he
    refine (Net.pairwise_airwires e.2 e.1).imp_of_mem fun hw hw' h => .inr ⟨?_, h⟩
    rw [(Net.of_mem_airwires hw).1, (Net.of_mem_airwires hw').1]
  · refine (pairwise_numberedNets hsize).imp fun h w hw w' hw' => .inl ?_
    rwa [(Net.of_mem_airwires hw).1, (Net.of_mem_airwires hw').1]

/-- A store draws what its nets show after every history in which no slot of a net is filled
again so often that its generations start over. -/
theorem drawn_run (options : Options) (history : List Operation)
    (h : ∀ code net, (run (empty options) history).net? code = some net → ∀ slot,
      (Net.empty options.strategy).refills slot (netHistory options history code) < 2 ^ 32) :
    (run (empty options) history).Drawn := by
  have hfiles := files_run options history
  have hnets (code : NetCode) (net : Net)
      (hnet : (run (empty options) history).net? code = some net) :
      net = Net.run (Net.empty options.strategy) (netHistory options history code) := by
    rw [← netAt_run, netAt, hnet, Option.getD_some]
  generalize run (empty options) history = s at h hfiles hnets
  constructor
  · exact pairwise_airwires hfiles.size_le
  · intro w hw
    obtain ⟨⟨code, net⟩, hlisted, hw⟩ := List.mem_flatMap.1 hw
    obtain ⟨rfl, hvisible⟩ := Net.of_mem_airwires hw
    obtain ⟨hcode, hnet⟩ := (mem_numberedNets hfiles.size_le).1 hlisted
    exact ⟨hcode, net, hnet, hvisible⟩
  · intro code net hcode hnet hvisible
    refine ⟨net.steadyLinks.map (.ofLink code false), net.simpleLinks.map (.ofLink code true),
      ?_, ?_⟩
    · rw [filter_airwires hfiles.size_le hcode hnet, Net.airwires_of_visible hvisible]
    · have hshown := Net.shown_run options.strategy _ (h code net hnet) code
      rwa [← hnets code net hnet] at hshown

/-- After the last update a pad is moved, into the slot that its old node leaves, another one
is dragged, and a net is hidden. -/
def movedSince : List Operation :=
  [.load
      { modules := [], tracks := [], zones := [],
        vias := [{ id := 1, net := 2, position := ⟨0, 0⟩ },
          { id := 2, net := 2, position := ⟨6, 8⟩ }] },
    .add (.pad { id := 1, net := 1, position := ⟨0, 0⟩ }),
    .add (.pad { id := 2, net := 1, position := ⟨3, 4⟩ }),
    .add (.pad { id := 3, net := 1, position := ⟨9, 9⟩ }),
    .add (.pad { id := 4, net := 1, position := ⟨0, 2⟩ }),
    .recalculate none,
    .update (.pad { id := 2, net := 1, position := ⟨5, 5⟩ }), .mark (.pad 3),
    .setVisible 2 false]

/-- The one line of the dragged pad goes to where the other one is now. -/
theorem drawn_movedSince :
    let options : Options := { parallelThreshold := 4, strategy := .everyPair, maxNet := 9 }
    let s := run (empty options) movedSince
    s.isDirty 1 = true ∧ (Net.empty .everyPair).refills 1 (netHistory options movedSince 1) = 1 ∧
      (s.netAt 1).simpleLinks.map (fun l => (l.sourcePosition, l.targetPosition)) =
        [(⟨9, 9⟩, ⟨5, 5⟩)] ∧
      s.Drawn := by
  let options : Options := { parallelThreshold := 4, strategy := .everyPair, maxNet := 9 }
  have hsize : (run (empty options) movedSince).nets.size = 3 := by decide +kernel
  have hlengths : ∀ i < 3, (netHistory options movedSince (UInt64.ofNat i)).length < 2 ^ 32 := by
    decide +kernel
  have hrefills : ∀ code net, (run (empty options) movedSince).net? code = some net → ∀ slot,
      (Net.empty options.strategy).refills slot (netHistory options movedSince code) < 2 ^ 32 := by
    intro code net hnet slot
    have hcode := (Array.getElem?_eq_some_iff.1 hnet).1
    rw [hsize] at hcode
    have hlength := hlengths code.toNat hcode
    rw [UInt64.ofNat_toNat] at hlength
    exact Nat.lt_of_le_of_lt (Net.refills_le_length _ _ _) hlength
  exact ⟨by decide +kernel, by decide +kernel, by decide +kernel,
    drawn_run options movedSince hrefills⟩

end Store
end Unrouted
