import ProofTracker.Proofs.Blueprint.Run
import ProofTracker.Proofs.Document.RoundTrip

/-! # A blueprint is loaded as it was saved

The items of a sound blueprint are in normal form and can be stored (`Sound.storable`), so its
document is read as its items in their order. Put into the empty blueprint they pass the checks,
since these ask no more than that the blueprint is sound, and they give its catalog and its order
again (`Sound.reload`). -/

namespace ProofTracker.Blueprint

open Document

variable {b : Blueprint} {i : Item} {l : String}

theorem Sound.storable (hb : b.Sound) (hi : i ∈ b.items) : Storable i where
  label := (hb.admissible i hi).label
  uses l hl := by
    obtain ⟨j, hj, rfl⟩ := SortedBy.contains_iff.mp (hb.catalog.closed i hi l hl)
    exact (hb.admissible j hj).label
  attempts := (hb.admissible i hi).budget
  location x hx := by
    rw [(hb.admissible i hi).location] at hx
    exact ((hb.admissible i hi).oneLine x hx).1

/-! ### The items in the order of the document -/

theorem Sound.map_label_list (hb : b.Sound) : b.list.map Item.label = b.order := by
  have horder : ∀ l ∈ b.order, ∃ i, b.items.get? l = some i := fun l hl => by
    obtain ⟨i, -, hi⟩ := SortedBy.exists_of_contains ((hb.mem_order l).mp hl)
    exact ⟨i, hi⟩
  unfold list
  generalize b.order = order at horder
  induction order with
  | nil => rfl
  | cons l order ih =>
    obtain ⟨i, hi⟩ := horder l (by simp)
    rw [List.filterMap_cons_some hi, List.map_cons, hb.key_eq l i hi,
      ih fun m hm => horder m (List.mem_cons_of_mem _ hm)]

theorem Sound.mem_list (hb : b.Sound) : i ∈ b.list ↔ i ∈ b.items := by
  unfold list
  rw [List.mem_filterMap]
  constructor
  · rintro ⟨l, -, hl⟩; exact SortedBy.mem_of_get?_eq_some hl
  · intro hi
    exact ⟨i.label, (hb.mem_order _).mpr (SortedBy.contains_of_mem hi), SortedBy.get?_of_mem hi⟩

theorem Sound.nodup_labels_list (hb : b.Sound) : (b.list.map Item.label).Nodup := by
  rw [hb.map_label_list]
  exact hb.order_nodup

/-! ### Loading -/

/-- The items of a blueprint, put into the empty one. -/
theorem Sound.merge_list (hb : b.Sound) : merge ∅ b.list = b.items := by
  have hnormal : b.list.map Item.normalize = b.list :=
    (List.map_congr_left fun i hi => (hb.admissible i (hb.mem_list.mp hi)).normalize).trans
      (List.map_id _)
  refine SortedBy.ext_mem fun i => ?_
  unfold merge
  rw [hnormal]
  show i ∈ SortedBy.ofList b.list ↔ _
  rw [SortedBy.mem_ofList (List.pairwise_map.mp hb.nodup_labels_list), hb.mem_list]

theorem Sound.newLabels_list (hb : b.Sound) : newLabels ∅ b.list = b.order := by
  have hall : (b.order.filter fun l => !SortedBy.contains (∅ : Blueprint).items l) = b.order :=
    List.filter_eq_self.mpr fun l _ => rfl
  unfold newLabels
  rw [hb.map_label_list, hall, eraseDups_of_nodup hb.order_nodup]

/-- The listed items of a sound blueprint make up this blueprint. -/
theorem Sound.ofItems_list (hb : b.Sound) : ofItems b.list = .ok b := by
  unfold ofItems
  rw [put_eq_ok_iff, hb.merge_list, hb.newLabels_list]
  refine ⟨fun i hi => ?_, hb.catalog, ?_⟩
  · have ha := hb.admissible i (hb.mem_list.mp hi)
    rw [ha.normalize]
    exact ha
  · show b = ⟨b.items, place [] _ b.order⟩
    unfold place
    simp

theorem Sound.reload (hb : b.Sound) : Blueprint.parse b.toDocument = .ok b := by
  have hread : Document.parse b.toDocument = .ok b.list := by
    refine parse_render_of_normal (fun i hi => ?_) hb.nodup_labels_list
    have hi := hb.mem_list.mp hi
    exact ⟨hb.storable hi, (hb.admissible i hi).normalize⟩
  unfold Blueprint.parse
  exact bind_eq_ok_iff.mpr ⟨b.list, hread, hb.ofItems_list⟩

/-- **The document of a reachable blueprint is loaded as this blueprint**, with the same items and the
same order. -/
theorem Reachable.parse_toDocument (h : b.Reachable) : Blueprint.parse b.toDocument = .ok b :=
  h.sound.reload

/-- A blueprint with an item moved past its budget and a second one put in front of the first. -/
theorem Reachable.parse_toDocument_hard :
    let i : Item := { label := "b:1", kind := .lem, attempts := ⟨1, 2⟩, proof := "\n# lemma a\n" }
    let j : Item := { label := "a", kind := .defn, attempts := ⟨0, 9⟩, location := some " A.lean" }
    let b := (((∅ : Blueprint).after (.upsert i)).after (.advance "b:1" .underway 7)).after
      (.upsertBatch [{ i with uses := {"a"} }, j])
    b.order = ["a", "b:1"] ∧ Blueprint.parse b.toDocument = .ok b := by
  intro i j b
  have hb : b.Reachable := .after _ (.after _ (.after _ .empty))
  exact ⟨by decide +kernel, hb.parse_toDocument⟩

end ProofTracker.Blueprint
