import TitanX.Model.JwtTokenService
import TitanX.Lib.Separated

/-!
# Permissions in a token

The permissions go into a token as one string, joined by a loop with an index, and come out
of it by a loop over the characters. The first loop is `List.intercalate` with a comma, the
second keeps the pieces between commas that are not empty, so `TitanX.Lib.Separated` says
what comes back: the list that went in exactly when each permission is itself a piece
(`permissions_round_trip`). A permission with a comma in it comes back as several.

jwt-cpp is in between; `Returns` is what is asked of it.
-/

namespace TitanX.Proof

open TitanX JwtTokenService

/-! ## The two loops -/

/-- From the second permission on, the loop puts a comma before each. -/
theorem toList_join_tail (xs : List String) (acc : String) (i : Nat) :
    ((xs.zipIdx (i + 1)).foldl
        (fun permsStr entry => (if entry.2 > 0 then permsStr ++ "," else permsStr) ++ entry.1)
        acc).toList
      = acc.toList ++ xs.flatMap (fun x => ',' :: x.toList) := by
  induction xs generalizing acc i with
  | nil => simp
  | cons x xs ih =>
      rw [List.zipIdx_cons, List.foldl_cons, ih, if_pos (Nat.succ_pos i), List.flatMap_cons]
      simp

/-- The loop of `generateAccessToken` joins with commas. -/
theorem toList_joinPermissions (xs : List String) :
    (joinPermissions xs).toList = [','].intercalate (xs.map String.toList) := by
  cases xs with
  | nil => rfl
  | cons x xs =>
      unfold joinPermissions
      rw [List.zipIdx_cons, List.foldl_cons, toList_join_tail, List.map_cons,
        intercalate_singleton_cons, List.flatMap_map, if_neg (Nat.lt_irrefl 0)]
      simp

/-- What is emitted for a piece at a comma or at the end of the claim. -/
theorem pushPerm_eq (ps : List String) {perm : String} (hperm : ',' ∉ perm.toList) :
    pushPerm ps perm = ps ++ (pieces ',' perm.toList).map String.ofList := by
  unfold pushPerm
  by_cases h : perm = ""
  · subst h
    simp
  · have hne : perm.toList ≠ [] := by simpa using h
    rw [if_neg (by simpa using h), pieces_of_notMem hne hperm]
    simp

/--
The automaton of `validateAndExtract`, from a state in which `perm` has been collected: what
it emits is the pieces of `perm` and the rest of the claim together.
-/
theorem pushPerm_foldl_splitStep (l : List Char) (ps : List String) {perm : String}
    (hperm : ',' ∉ perm.toList) :
    pushPerm (l.foldl splitStep (ps, perm)).1 (l.foldl splitStep (ps, perm)).2
      = ps ++ (pieces ',' (perm.toList ++ l)).map String.ofList := by
  induction l generalizing ps perm with
  | nil => rw [List.append_nil]; exact pushPerm_eq ps hperm
  | cons c l ih =>
      rw [List.foldl_cons]
      by_cases hc : c = ','
      · subst hc
        have hstep : splitStep (ps, perm) ',' = (pushPerm ps perm, "") := rfl
        rw [hstep, ih _ (by simp), pushPerm_eq ps hperm, pieces_append_cons, List.map_append,
          List.append_assoc]
        rfl
      · have hstep : splitStep (ps, perm) c = (ps, perm.push c) := if_neg hc
        have hpush : ',' ∉ (perm.push c).toList := by
          rw [String.toList_push, List.mem_append, List.mem_singleton]
          rintro (h | h)
          · exact hperm h
          · exact hc h.symm
        rw [hstep, ih ps hpush, String.toList_push, List.append_assoc, List.singleton_append]

/-- The loop of `validateAndExtract` keeps the pieces between commas. -/
theorem splitPermissions_eq (s : String) :
    splitPermissions s = (pieces ',' s.toList).map String.ofList :=
  pushPerm_foldl_splitStep s.toList [] (by simp)

/-! ## The round trip -/

/-- A permission that survives the way through a token. -/
def Permission (x : String) : Prop := x ≠ "" ∧ ',' ∉ x.toList

theorem permission_iff (x : String) : Permission x ↔ x.toList ≠ [] ∧ ',' ∉ x.toList := by
  unfold Permission
  rw [Ne, Ne, String.toList_eq_nil_iff]

/-- Everything that comes out of a token is such a permission. -/
theorem permission_of_mem_split {s x : String} (h : x ∈ splitPermissions s) : Permission x := by
  rw [splitPermissions_eq, List.mem_map] at h
  obtain ⟨p, hp, rfl⟩ := h
  rw [permission_iff, String.toList_ofList]
  exact of_mem_pieces hp

theorem map_toList_injective : Function.Injective (List.map String.toList) :=
  List.map_injective_iff.mpr fun _ _ h => String.toList_inj.mp h

theorem split_join_eq_iff (xs : List String) :
    splitPermissions (joinPermissions xs) = xs ↔ ∀ x ∈ xs, Permission x := by
  rw [← map_toList_injective.eq_iff, splitPermissions_eq, toList_joinPermissions, List.map_map]
  have hid : String.toList ∘ String.ofList = id := funext fun l => String.toList_ofList
  rw [hid, List.map_id, pieces_intercalate_eq_self_iff, List.forall_mem_map]
  simp only [permission_iff]

/--
**Round trip of the permissions.** A list comes back from its claim unchanged exactly when
none of its permissions is empty or has a comma in it. What has come back once comes back
again.
-/
theorem permissions_round_trip :
    (∀ xs : List String, splitPermissions (joinPermissions xs) = xs
        ↔ ∀ x ∈ xs, x ≠ "" ∧ ',' ∉ x.toList)
    ∧ ∀ s : String,
        splitPermissions (joinPermissions (splitPermissions s)) = splitPermissions s :=
  ⟨split_join_eq_iff, fun _ => (split_join_eq_iff _).mpr fun _ => permission_of_mem_split⟩

example : splitPermissions (joinPermissions ["READ", "TRADE,ADMIN"]) = ["READ", "TRADE", "ADMIN"] := by
  decide

/-! ## Through a token -/

/-- jwt-cpp gives back the payload that was signed and accepts the token at the time `now`. -/
structure Returns (jwt : JwtCpp) (now : Int) : Prop where
  decode : ∀ payload, jwt.decode (jwt.sign signingSecret payload) = .ok payload
  verify : ∀ payload, jwt.verify signingSecret "titanx" now (jwt.sign signingSecret payload) = .ok ()

/-- What the service reads in an access token of its own. -/
theorem validateAndExtract_accessToken {jwt : JwtCpp} {now : Int} (h : Returns jwt now)
    (issued : Int) (accountId : String) (xs : List String) :
    validateAndExtract jwt now (generateAccessToken jwt issued accountId xs)
      = { accountId := accountId, permissions := splitPermissions (joinPermissions xs),
          tokenType := "ACCESS", valid := true, error := "" } := by
  unfold validateAndExtract generateAccessToken
  simp only [h.decode, h.verify, JwtCpp.getString, JwtCpp.getPayloadClaim]
  rfl

/-- A token gives an account the permissions it was issued with, and no others, when none of
them is empty or has a comma in it. -/
theorem accessToken_permissions_iff {jwt : JwtCpp} {now : Int} (h : Returns jwt now)
    (issued : Int) (accountId : String) (xs : List String) :
    (validateAndExtract jwt now (generateAccessToken jwt issued accountId xs)).permissions = xs
      ↔ ∀ x ∈ xs, Permission x := by
  rw [validateAndExtract_accessToken h]
  exact split_join_eq_iff xs

/-- A refresh token gives no permissions. -/
theorem refreshToken_permissions {jwt : JwtCpp} {now : Int} (h : Returns jwt now)
    (issued : Int) (accountId sessionId : String) :
    validateAndExtract jwt now (generateRefreshToken jwt issued accountId sessionId)
      = { accountId := accountId, permissions := [], tokenType := "REFRESH", valid := true,
          error := "" } := by
  unfold validateAndExtract generateRefreshToken
  simp only [h.decode, h.verify, JwtCpp.getString, JwtCpp.getPayloadClaim]
  rfl

end TitanX.Proof
