import FPTreeDB.Hash.ClHash
import FPTreeDB.Tree.Progress

/-!
# The store with the hash of the program

The other modules take `keyHash` as a parameter. Here it is the function of
utility.cpp:27-35.

* `keyHash_withClHash`: every key has a fingerprint.
* `acts_fingerprints`: the fingerprints of the leaves, mapped and on storage.
-/

namespace FPTreeDB

open Runs Node PAllocator

/-- The environment with the fingerprints of the program. -/
def Env.withClHash (env : Env) : Env := { env with keyHash := fun k => (ClHash.keyHash 1 k).getD 0 }

theorem keyHash_withClHash (env : Env) (fuel : ℕ) (k : Key) :
    ClHash.keyHash (fuel + 1) k = some (env.withClHash.keyHash k) := by
  obtain ⟨h, hh, -⟩ := @ClHash.clhash_short ClHash.fingerprintKey (ClHash.toString k)
    (ClHash.not_long_toString k)
  have hkey : ∀ fuel, ClHash.keyHash (fuel + 1) k = some (h.setWidth 8) := by
    intro fuel
    rw [ClHash.keyHash_eq_map, hh, Option.map_some]
  have hone : ClHash.keyHash 1 k = some (h.setWidth 8) := hkey 0
  simp only [hkey fuel, Env.withClHash, hone, Option.getD_some]

/-- In every used slot of every leaf, mapped and on storage, the fingerprint is `keyHash`
    of the key, through splits, removals and reopenings. -/
theorem acts_fingerprints (env : Env) (d : ℕ) (hd : 1 ≤ d) (acts : List DbAct)
    (hacts : Allowed DbAct.Pre DbAct.apply acts fun _ => none) (t : FPTree) (s : World)
    (hrun : run (DbAct.step env.withClHash) acts (emptyDb env.withClHash d) = some (t, s)) :
    ∀ p ∈ (inner t.root).leaves,
      ∀ img ∈ [s.leafAt p, (s.disk.groups p.fileId).leaf (leafIndex p)], ∀ i,
      img.getBit LEAF_DEGREE i = true →
        ∀ fuel, ClHash.keyHash (fuel + 1) (img.kv i).k = some (img.fingerprints i) := by
  intro p hp img himg i hbit fuel
  have h := acts_dbInv env.withClHash hd acts hacts hrun
  have hleaf := h.wellFormed.leaf p hp
  have hdisk : (s.disk.groups p.fileId).leaf (leafIndex p) = s.leafAt p := by
    rw [h.disk.synced]
    rfl
  have himg' : img = s.leafAt p := by
    rcases List.mem_pair.mp himg with rfl | rfl
    · rfl
    · exact hdisk
  rw [himg'] at hbit ⊢
  rw [keyHash_withClHash env, hleaf.ok.fingerprint i (LeafImage.mem_slots.mpr hbit)]

theorem acts_fingerprints_one : ∃ t s,
    run (DbAct.step Env.flat.withClHash) [.call (.insert 5 50)] (emptyDb Env.flat.withClHash 1) =
    some (t, s) ∧
    ∀ p ∈ (inner t.root).leaves, (s.leafAt p).getBit LEAF_DEGREE 0 = true →
      ClHash.keyHash 1 ((s.leafAt p).kv 0).k = some ((s.leafAt p).fingerprints 0) := by
  have hrun : run (DbAct.step Env.flat.withClHash) [.call (.insert 5 50)]
      (emptyDb Env.flat.withClHash 1) = some (_, _) := rfl
  refine ⟨_, _, hrun, fun p hp hbit => ?_⟩
  exact acts_fingerprints Env.flat 1 le_rfl [.call (.insert 5 50)] ⟨rfl, trivial⟩ _ _ hrun p hp _
    List.mem_cons_self 0 hbit 0

end FPTreeDB
