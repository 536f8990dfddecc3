import Mathlib.Data.List.Nodup
import Mathlib.Data.List.Perm.Basic
import Std.Data.ExtTreeMap.Lemmas
import TrieOverlay.InFlight

/-!
# Taking off and landing

A message that takes off under a new name is added to those in flight
(`InFlight.toList_register_perm`); the first report on it takes exactly this one out
(`InFlight.toList_complete_perm`), and a report on any other name changes nothing
(`InFlight.complete_of_none`).
-/

namespace TrieOverlay.InFlight

variable {α : Type} {f : InFlight α} {id : MessageId} {a : Attempt α}

theorem mem_toList_iff {x : MessageId × Attempt α} :
    x ∈ f.toList ↔ f.attempts[x.1]? = some x.2 := by
  obtain ⟨id, a⟩ := x
  exact Std.ExtTreeMap.mem_toList_iff_getElem?_eq_some

theorem nodup_names (f : InFlight α) : (f.toList.map (·.1)).Nodup := by
  have h := Std.ExtTreeMap.distinct_keys_toList (t := f.attempts)
  refine List.pairwise_map.2 (h.imp fun hne heq => hne ?_)
  rw [heq]
  exact Std.ReflCmp.compare_self

theorem nodup_toList (f : InFlight α) : f.toList.Nodup :=
  f.nodup_names.of_map _

theorem getElem?_register (f : InFlight α) (id' : MessageId) :
    (f.register id a).attempts[id']? = if id = id' then some a else f.attempts[id']? := by
  simp [register, Std.ExtTreeMap.getElem?_insert, Std.LawfulEqCmp.compare_eq_iff_eq]

theorem getElem?_complete (f : InFlight α) (id' : MessageId) :
    (f.complete id).2.attempts[id']? = if id = id' then none else f.attempts[id']? := by
  simp [complete, Std.ExtTreeMap.getElem?_erase, Std.LawfulEqCmp.compare_eq_iff_eq]

theorem toList_register_perm (h : f.attempts[id]? = none) :
    (f.register id a).toList.Perm ((id, a) :: f.toList) := by
  have hnot : (id, a) ∉ f.toList := by
    rw [mem_toList_iff, h]
    simp
  rw [List.perm_ext_iff_of_nodup (nodup_toList _) (List.nodup_cons.2 ⟨hnot, nodup_toList f⟩)]
  rintro ⟨id', a'⟩
  rw [List.mem_cons, mem_toList_iff, mem_toList_iff, getElem?_register]
  by_cases hid : id = id'
  · subst hid
    simp [h, eq_comm]
  · simp [hid, Ne.symm hid]

theorem toList_complete_perm (h : f.attempts[id]? = some a) :
    f.toList.Perm ((id, a) :: (f.complete id).2.toList) := by
  have hnot : (id, a) ∉ (f.complete id).2.toList := by
    rw [mem_toList_iff, getElem?_complete]
    simp
  rw [List.perm_ext_iff_of_nodup (nodup_toList _) (List.nodup_cons.2 ⟨hnot, nodup_toList _⟩)]
  rintro ⟨id', a'⟩
  rw [List.mem_cons, mem_toList_iff, mem_toList_iff, getElem?_complete]
  by_cases hid : id = id'
  · subst hid
    simp [h, eq_comm]
  · simp [hid, Ne.symm hid]

theorem complete_of_none (h : f.attempts[id]? = none) : f.complete id = (none, f) := by
  have herase : f.attempts.erase id = f.attempts := by
    refine Std.ExtTreeMap.ext_getElem? fun id' => ?_
    rw [Std.ExtTreeMap.getElem?_erase]
    split
    · rename_i hc
      rw [← Std.LawfulEqCmp.compare_eq_iff_eq.1 hc, h]
    · rfl
  rw [complete, h, herase]

end TrieOverlay.InFlight
