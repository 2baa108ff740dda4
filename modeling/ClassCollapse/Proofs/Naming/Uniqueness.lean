import ClassCollapse.Proofs.Naming.Search

/-!
# Names are unique

A resolver holds each name for one key only, and its two tables are inverse to each other. The
invariant rests on the search for a free name, which no other key holds.
-/

namespace ClassCollapse.NameResolver

/-- The tables are inverse to each other, and no key and no name occurs twice. -/
structure Sound (r : NameResolver) : Prop where
  owners_eq : r.owners = r.names.map Prod.swap
  keys_nodup : (r.names.map Prod.fst).Nodup
  names_nodup : (r.names.map Prod.snd).Nodup

theorem sound_new (namePrefix : String) (maxInvocations : Nat) (strategy : Option NamingStrategy)
    (random : RandomSource) : (new namePrefix maxInvocations strategy random).Sound where
  owners_eq := rfl
  keys_nodup := List.nodup_nil
  names_nodup := List.nodup_nil

theorem Sound.owned_names {r : NameResolver} (h : r.Sound) :
    r.owners.map Prod.fst = r.names.map Prod.snd := by
  rw [h.owners_eq, List.map_map]
  rfl

/-! ## What an assignment does to the tables -/

/-- A request changes nothing but the calls. -/
theorem requestName_state (tag : Option String) (classList : String) (attempts : Nat)
    (r : NameResolver) :
    ∃ calls invocations,
      (requestName tag classList attempts r).2 = { r with calls, invocations } := by
  induction attempts generalizing r with
  | zero => exact ⟨r.calls, r.invocations, rfl⟩
  | succ attempts ih =>
    rw [requestName]
    split
    · exact ⟨r.calls, r.invocations, rfl⟩
    · split
      · exact ⟨r.calls, r.invocations, rfl⟩
      · dsimp only
        split
        · exact ⟨_, _, rfl⟩
        · split
          · obtain ⟨calls, invocations, hState⟩ := ih _
            exact ⟨calls, invocations, hState⟩
          · exact ⟨_, _, rfl⟩

theorem resolveBody_state (tag : Option String) (classList : String) (r : NameResolver) :
    ∃ calls invocations random,
      (resolveBody tag classList r).2 = { r with calls, invocations, random } := by
  rw [resolveBody]
  split
  · exact ⟨r.calls, r.invocations, r.random, rfl⟩
  · obtain ⟨calls, invocations, hState⟩ := requestName_state tag classList maxAttempts r
    split
    next body r' h =>
      rw [h] at hState
      exact ⟨calls, invocations, r.random, hState⟩
    next r' h =>
      rw [h] at hState
      dsimp only at hState
      rw [fallbackName, hState]
      exact ⟨calls, invocations, _, rfl⟩

theorem assign_known {r : NameResolver} {key : CanonicalKey} {name : String}
    (h : r.nameFor? key = some name) (tag : Option String) (classList : String) :
    r.assign key tag classList = (name, r) := by
  rw [assign, h]

/-- A new key gets a name that no other key holds, and nothing else changes in the tables. -/
theorem assign_new {r : NameResolver} (hr : r.Sound) {key : CanonicalKey}
    (h : r.nameFor? key = none) (tag : Option String) (classList : String) :
    (r.assign key tag classList).2.names =
        r.names ++ [(key, (r.assign key tag classList).1)] ∧
      (r.assign key tag classList).2.owners =
        r.owners ++ [((r.assign key tag classList).1, key)] ∧
      (r.assign key tag classList).1 ∉ r.names.map Prod.snd := by
  obtain ⟨calls, invocations, random, hState⟩ := resolveBody_state tag classList r
  have hNames : (resolveBody tag classList r).2.names = r.names := by rw [hState]
  have hOwners : (resolveBody tag classList r).2.owners = r.owners := by rw [hState]
  have hKey : key ∉ r.names.map Prod.fst := lookup_eq_none_iff_notMem.mp h
  rw [assign, h]
  dsimp only
  refine ⟨by rw [hNames], by rw [hOwners], ?_⟩
  rw [hOwners, ← hr.owned_names]
  intro hTaken
  obtain ⟨owner, hOwner⟩ := Option.ne_none_iff_exists'.mp
    (mt lookup_eq_none_iff_notMem.mp (not_not_intro hTaken))
  have hFree := isFree_disambiguate r.owners
    ((resolveBody tag classList r).2.namePrefix ++ (resolveBody tag classList r).1) key classList
  have hMem := mem_of_lookup_eq_some hOwner
  rw [isFree_eq_true_iff.mp hFree owner hOwner, hr.owners_eq] at hMem
  obtain ⟨entry, hEntry, hSwap⟩ := List.mem_map.mp hMem
  exact hKey (List.mem_map.mpr ⟨entry, hEntry, congrArg Prod.snd hSwap⟩)

theorem sound_assign {r : NameResolver} (hr : r.Sound) (key : CanonicalKey) (tag : Option String)
    (classList : String) : (r.assign key tag classList).2.Sound := by
  cases hKnown : r.nameFor? key with
  | some name =>
    rw [assign_known hKnown]
    exact hr
  | none =>
    obtain ⟨hNames, hOwners, hFresh⟩ := assign_new hr hKnown tag classList
    refine ⟨?_, ?_, ?_⟩
    · rw [hNames, hOwners, hr.owners_eq, List.map_append]
      rfl
    · rw [hNames]
      exact nodup_map_concat hr.keys_nodup (lookup_eq_none_iff_notMem.mp hKnown)
    · rw [hNames]
      exact nodup_map_concat hr.names_nodup hFresh

/-- Two keys never hold the same name. -/
theorem Sound.nameFor?_injective {r : NameResolver} (h : r.Sound) {key other : CanonicalKey}
    {name : String} (hKey : r.nameFor? key = some name) (hOther : r.nameFor? other = some name) :
    key = other := by
  have hMem := mem_of_lookup_eq_some hKey
  have hMemOther := mem_of_lookup_eq_some hOther
  exact congrArg Prod.fst (List.inj_on_of_nodup_map h.names_nodup hMem hMemOther rfl)

end ClassCollapse.NameResolver
