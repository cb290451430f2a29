import Cerverus.EventLoop
import Cerverus.HashmapRefines

/-!
# Static serving

The table `router_create` fills with the public files, and what `router_handle_request` sends
because of it.
-/
namespace Cerverus.EventLoop
open Hash Http

/-- The table with the first files of the listing in it, and room for `n` more. -/
structure Listed (hm : Hashmap Unit) (files : List Bytes) (n : ℕ) : Prop where
  probed : Probed hm
  holds : ∀ key, Holds hm key () ↔ key ∈ files
  room : n ≤ emptySlots hm

theorem emptySlots_fresh (size : ℕ) (hash : Bytes → UInt64) :
    emptySlots (freshTable size hash : Hashmap Unit) = size := by
  simp [emptySlots, freshTable, HashmapEntry.isEmpty]

theorem listed_create {n : ℕ} (hash : Bytes → UInt64) (h : 1 ≤ n) :
    Listed (hashmapCreate n loadPoint67 hash) [] n := by
  have hle := le_tableSize n
  have hr : Represents (hashmapCreate n loadPoint67 hash : Hashmap Unit) ∅ :=
    represents_fresh hash (by omega)
  refine ⟨hr.probed, fun key => ?_, ?_⟩
  · rw [← hr.lookup]
    simp
  · rw [hashmapCreate_eq, emptySlots_fresh]
    exact hle

theorem listed_set {hm : Hashmap Unit} {files : List Bytes} {file : Bytes} {n : ℕ}
    (h : Listed hm files (n + 1)) (hnew : file ∉ files) :
    ∃ hm', hashmapSet hm file () = some (true, hm') ∧ Listed hm' (files ++ [file]) n := by
  have habsent : ∀ d, ¬ Holds hm file d := fun _ hd => hnew ((h.holds file).mp hd)
  rcases hashmapSet_spec h.probed file () with ⟨hm', hset, hp, _, hh, _, hempty⟩ | ⟨_, _, hfull⟩
  · refine ⟨hm', hset, hp, fun key => ?_, ?_⟩
    · rw [hh, h.holds, List.mem_append, List.mem_singleton]
      by_cases hk : key = file <;> simp [hk]
    · have hroom := h.room
      have hused := hempty habsent
      omega
  · have hroom := h.room
    omega

theorem listPublic_listed {hm : Hashmap Unit} {done files : List Bytes} {n : ℕ}
    (h : Listed hm done (files.length + n)) (hnodup : (done ++ files).Nodup) :
    ∃ hm', listPublic hm files = some hm' ∧ Listed hm' (done ++ files) n := by
  induction files generalizing hm done with
  | nil => exact ⟨hm, rfl, by simpa using h⟩
  | cons file files ih =>
    have hnew : file ∉ done := fun hmem =>
      (List.disjoint_of_nodup_append hnodup) hmem (List.mem_cons_self ..)
    rw [List.length_cons, Nat.add_right_comm] at h
    obtain ⟨hm', hset, hl⟩ := listed_set h hnew
    rw [List.append_cons] at hnodup ⊢
    obtain ⟨hm'', hlist, hl'⟩ := ih hl hnodup
    exact ⟨hm'', by simp [listPublic, hset, hlist], hl'⟩

theorem memchr_isSome {s : Bytes} {c : UInt8} : (memchr s c).isSome ↔ c ∈ s := by
  simp [memchr, List.findIdx?_isSome]

theorem publicHit_listed {hm : Hashmap Unit} {files : List Bytes} {n : ℕ}
    {table : HttpMethod → TrieNode RouteCallback} (h : Listed hm files n) (request : Request) :
    publicHit ⟨hm, table⟩ request =
      some (decide (request.method = .get ∧ request.uri ∈ files ∧ 46 ∈ request.uri)) := by
  simp only [publicHit, memchr_isSome]
  split_ifs with hdot
  · obtain ⟨hget, hext⟩ := hdot
    obtain ⟨data, hdata⟩ := hashmapGet_isSome h.probed request.uri
    rw [hdata, Option.map_some]
    congr 1
    cases data with
    | none =>
      have hno := (hashmapGet_eq_none h.probed).mp hdata ()
      rw [h.holds] at hno
      simp [hno]
    | some d =>
      have hin := (hashmapGet_eq_some h.probed).mp hdata
      rw [h.holds] at hin
      simp [hget, hext, hin]
  · congr 1
    rw [eq_comm, decide_eq_false_iff_not]
    intro hex
    obtain ⟨hget, _, hext⟩ := hex
    exact hdot ⟨hget, hext⟩

/-- For distinct public files, however they collide, every insertion succeeds; and a request
then makes the router send `/index.html` for `/`, a public file for a `GET` of exactly its
listed path, and nothing else before the registered handlers get it. -/
theorem static_serving_confined (files : List Bytes) (hash : Bytes → UInt64)
    (hne : files ≠ []) (hnodup : files.Nodup) :
    (∀ done file rest, files = done ++ file :: rest → ∃ hm hm',
      listPublic (hashmapCreate files.length loadPoint67 hash) done = some hm ∧
        hashmapSet hm file () = some (true, hm')) ∧
    ∃ hm, listPublic (hashmapCreate files.length loadPoint67 hash) files = some hm ∧
      ∀ table s request client memory,
        routerHandleRequest ⟨hm, table⟩ s request client memory =
          (if request.uri = [47] then
              prepRouteCallbackSendFile s client (publicRoot ++ indexName)
            else some s).bind fun s =>
          (if request.method = .get ∧ request.uri ∈ files ∧ 46 ∈ request.uri then
              prepRouteCallbackSendFile s client (publicRoot ++ request.uri)
            else some s).bind fun s =>
          runHandler ⟨hm, table⟩ s request client memory := by
  have hcreate := listed_create hash (List.length_pos_iff.mpr hne)
  refine ⟨fun done file rest hfiles => ?_, ?_⟩
  · have hlen : files.length = done.length + (rest.length + 1) := by simp [hfiles]
    rw [hlen] at hcreate ⊢
    have hnodup' : (done ++ file :: rest).Nodup := hfiles ▸ hnodup
    obtain ⟨hm, hlist, hl⟩ := listPublic_listed hcreate (List.Nodup.of_append_left hnodup')
    have hnew : file ∉ done := fun hmem =>
      (List.disjoint_of_nodup_append hnodup') hmem (List.mem_cons_self ..)
    obtain ⟨hm', hset, _⟩ := listed_set hl (by simpa using hnew)
    exact ⟨hm, hm', hlist, hset⟩
  · obtain ⟨hm, hlist, hl⟩ := listPublic_listed (n := 0) hcreate hnodup
    refine ⟨hm, hlist, fun table s request client memory => ?_⟩
    simp only [routerHandleRequest, sendIndex, sendPublic, publicHit_listed hl,
      Option.bind_some, decide_eq_true_eq, List.nil_append, Option.bind_eq_bind]

/-- A router with two public files whose hashes collide, asked for the second one. -/
theorem static_serving_second_file : ∃ hm,
    listPublic (hashmapCreate 2 loadPoint67 fun _ => 7) [indexName, testName] = some hm ∧
      ∀ table s client memory,
        routerHandleRequest ⟨hm, table⟩ s ⟨.get, testName, .v1p1, []⟩ client memory =
          (prepRouteCallbackSendFile s client (publicRoot ++ testName)).bind fun s =>
            runHandler ⟨hm, table⟩ s ⟨.get, testName, .v1p1, []⟩ client memory := by
  obtain ⟨_, hm, hlist, hserve⟩ :=
    static_serving_confined [indexName, testName] (fun _ => 7) (by decide) (by decide)
  refine ⟨hm, hlist, fun table s client memory => ?_⟩
  rw [hserve, if_neg (by decide), Option.bind_some, if_pos (by decide)]

end Cerverus.EventLoop
