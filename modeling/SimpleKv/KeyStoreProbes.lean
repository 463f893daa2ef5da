import SimpleKv.KeyStoreHistory

/- How far a lookup goes. Whatever the calls were, the entry farthest from its home is as
   near as the keys and the size of the table allow: no other way to give each key a bucket
   of its own does better (`Holds.psl_le`). A lookup stops one bucket after that, whether
   it finds its key or not. -/
namespace SimpleKv
namespace KeyStore
open Outcome RobinHood

variable {K V : Type}

/-- A bucket for each key of the table, at most `d` buckets after the one its hash names,
    and no bucket for two keys. Nothing is said about how they would be found. -/
structure Arrangement (store : KeyStore K V) (d : ℕ) (bucket : K → ℕ) : Prop where
  distinct : ∀ key ∈ store.iter.map Prod.fst, ∀ key' ∈ store.iter.map Prod.fst,
    bucket key = bucket key' → key = key'
  near : ∀ key ∈ store.iter.map Prod.fst, ∃ x ≤ d,
    bucket key = ((store.hasher key).toNat + x) % store.buckets.length

section
variable {self : KeyStore K V} {m : K → Option V} {d : ℕ} {bucket : K → ℕ}

theorem Holds.psl_le (h : Holds self m) (harranged : self.Arrangement d bucket) {i : ℕ}
    {e : Entry K V} (hi : self.buckets[i]? = some (some e)) : e.psl ≤ d := by
  have := h.capacity.neZero
  obtain ⟨z, hz⟩ := h.exists_free
  have hkey : ∀ {j e}, slots self.buckets.length self.buckets j = some e →
      e.key ∈ self.iter.map Prod.fst :=
    fun hj => List.mem_map_of_mem (f := Prod.fst) (mem_bindings_of_slots hj)
  refine h.laidOut.layout.dist_le hz (fun e => (bucket e.key : ZMod self.buckets.length))
    ?_ ?_ (slots_of_getElem? rfl hi)
  · intro j j' e e' hj hj' heq
    obtain ⟨x, _, hx⟩ := harranged.near _ (hkey hj)
    obtain ⟨x', _, hx'⟩ := harranged.near _ (hkey hj')
    apply slots_injective rfl h.lists.distinct hj hj'
    apply harranged.distinct _ (hkey hj) _ (hkey hj')
    -- both are bucket indices
    have hmod := (ZMod.natCast_eq_natCast_iff' _ _ _).mp heq
    rw [hx, hx', Nat.mod_mod, Nat.mod_mod] at hmod
    rw [hx, hx', hmod]
  · intro j e hj
    obtain ⟨x, hle, hx⟩ := harranged.near _ (hkey hj)
    have hgap : gap (home self.buckets.length e) (bucket e.key : ZMod self.buckets.length) =
        x % self.buckets.length := by
      unfold gap home
      rw [hx, ZMod.natCast_mod, h.laidOut.hashed hj, Nat.cast_add, add_sub_cancel_left,
        ZMod.val_natCast]
    rw [hgap]
    exact (Nat.mod_le _ _).trans hle

variable [DecidableEq K]

/-- A lookup does not go past the distance of the entry farthest from its home. -/
theorem indexOfLoop_ends (hn : IsCapacity self.buckets.length)
    (hpsl : ∀ (i : ℕ) (e : Entry K V), self.buckets[i]? = some (some e) → e.psl ≤ d) (key : K) (hash : UInt64) :
    ∀ (fuel psl : ℕ), d + 2 ≤ psl + fuel → psl ≤ d + 1 →
      ∃ found, indexOfLoop fuel self key hash psl = .ok found := by
  intro fuel
  induction fuel with
  | zero =>
    intro psl hfuel hle
    omega
  | succ fuel ih =>
    intro psl hfuel hle
    have := hn.neZero
    unfold indexOfLoop indexOfLoopWith
    simp only [getBucketIndexWith_wrapping, ok_bind, getBucketIndex_eq hn rfl, index_slots rfl]
    cases hslot : slots self.buckets.length self.buckets ((hash.toNat + psl : ℕ) : ZMod _) with
    | none => exact ⟨none, rfl⟩
    | some e =>
      have hget := getElem?_slots (show self.buckets.length = _ from rfl) (hash.toNat + psl)
      rw [hslot] at hget
      have hbound := hpsl _ _ hget
      simp only []
      split_ifs with hpast hkey
      · exact ⟨none, rfl⟩
      · exact ⟨_, rfl⟩
      · exact ih (psl + 1) (by omega) (by omega)

/-- After any calls and for any hash function: no arrangement of the keys in buckets of
    their own keeps all of them nearer to the buckets their hashes name than the table
    does, and within two more buckets than the distance of an arrangement every lookup has
    ended. -/
theorem runOps_psl_least (hasher : K → UInt64) (ops : List (Op K V)) :
    Completes (runOps ops (withHasher hasher)) (fun (_, self) =>
      ∀ d bucket, self.Arrangement d bucket →
        (∀ (i : ℕ) (e : Entry K V), self.buckets[i]? = some (some e) → e.psl ≤ d) ∧
        ∀ key, ∃ found, indexOfLoop (d + 2) self key (self.hasher key) 0 = .ok found) := by
  apply Yields.mono (runOps_spec ops (withHasher_holds hasher))
  intro (results, self) hpost d bucket harranged
  have hpsl := fun (i : ℕ) (e : Entry K V) => hpost.2.psl_le harranged (i := i) (e := e)
  exact ⟨hpsl, fun key => indexOfLoop_ends hpost.2.capacity hpsl key _ _ _ (by omega) (by omega)⟩

end
end KeyStore
end SimpleKv
