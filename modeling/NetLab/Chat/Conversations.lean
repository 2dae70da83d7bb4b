import NetLab.Chat.Pages

/-! The list of conversations: its contacts are the partners of the messages in the file, and the
contact of the latest message stands first. -/
namespace NetLab.Chat

/-- A line of `messages.db`, without its newline. -/
inductive DbLine
  | record (m : HistoryMessage)
  | other (text : Bytes)

namespace DbLine

def text : DbLine → Bytes
  | .record m => messageLine m.timestamp m.senderId m.receiverId m.message
  | .other text => text

def bytes (l : DbLine) : Bytes := l.text ++ [newline]

/-- A record with a time that is not negative, or a line from which fewer than three numbers parse. -/
def WellFormed : DbLine → Prop
  | .record m => m.Storable ∧ 0 ≤ m.timestamp
  | .other text => newline ∉ text ∧ (scan contactFormat (cstr (text ++ [newline]))).length < 3

/-- The line is read by one `fgets`. -/
def Short (l : DbLine) : Prop := l.text.length < 1399

def message : DbLine → Option HistoryMessage
  | .record m => some m
  | .other _ => none

end DbLine

instance (m : HistoryMessage) : Decidable m.Storable :=
  decidable_of_iff ((-2^63 ≤ m.timestamp ∧ m.timestamp < 2^63) ∧
    (-2^31 ≤ m.senderId ∧ m.senderId < 2^31) ∧ (-2^31 ≤ m.receiverId ∧ m.receiverId < 2^31) ∧
    m.message.length ≤ 1023 ∧ 0 ∉ m.message ∧ newline ∉ m.message)
    ⟨fun h => ⟨h.1,h.2.1,h.2.2.1,h.2.2.2.1,h.2.2.2.2⟩,
      fun h => ⟨h.time,h.sender,h.receiver,h.short,h.plain⟩⟩

instance : (l : DbLine) → Decidable l.WellFormed
  | .record m => inferInstanceAs (Decidable (m.Storable ∧ 0 ≤ m.timestamp))
  | .other text => inferInstanceAs (Decidable (newline ∉ text ∧
    (scan contactFormat (cstr (text ++ [newline]))).length < 3))

instance (l : DbLine) : Decidable l.Short := inferInstanceAs (Decidable (l.text.length < 1399))

/-- The other party of a message that the user has sent or received. -/
def partnerOf (userId : ℤ) (m : HistoryMessage) : Option ℤ :=
  if m.senderId = userId then some m.receiverId
  else if m.receiverId = userId then some m.senderId
  else none

def partners (userId : ℤ) (ms : List HistoryMessage) : List ℤ := ms.filterMap (partnerOf userId)

/-- The time of the latest message with a partner. -/
def latest (userId : ℤ) (ms : List HistoryMessage) (id : ℤ) : ℤ :=
  ((ms.filter (fun m => partnerOf userId m = some id)).map HistoryMessage.timestamp).foldl max 0

/-- The ids are those of `people`, each once, and who has written last stands first. -/
structure ListsByTime (ids people : List ℤ) (time : ℤ → ℤ) : Prop where
  nodup : ids.Nodup
  mem : ∀ id, id ∈ ids ↔ id ∈ people
  recent : ids.Pairwise (fun a b => time b ≤ time a)

section Sorting

/-- The inner loop brings the latest of the contacts to its position. -/
theorem exchange_latest (x : Contact) (ys : List Contact) :
    x.2 ≤ (exchange x ys).1.2 ∧ ∀ c ∈ (exchange x ys).2, c.2 ≤ (exchange x ys).1.2 := by
  induction ys generalizing x with
  | nil => exact ⟨le_refl _,by simp [exchange]⟩
  | cons y ys ih =>
    rw [exchange]
    split_ifs with hlater
    · obtain ⟨hhead,hrest⟩ := ih y
      have hx : x.2 ≤ (exchange y ys).1.2 := (le_of_lt hlater).trans hhead
      exact ⟨hx,List.forall_mem_cons.mpr ⟨hx,hrest⟩⟩
    · obtain ⟨hhead,hrest⟩ := ih x
      exact ⟨hhead,List.forall_mem_cons.mpr ⟨(not_lt.mp hlater).trans hhead,hrest⟩⟩

/-- The outer loop sorts. -/
theorem exchangeSort_sorted {n : ℕ} {xs : List Contact} (hn : xs.length ≤ n) :
    (exchangeSort n xs).Pairwise (fun a b => b.2 ≤ a.2) := by
  induction n generalizing xs with
  | zero =>
    obtain rfl := List.eq_nil_of_length_eq_zero (Nat.le_zero.mp hn)
    exact List.Pairwise.nil
  | succ n ih =>
    cases xs with
    | nil => exact List.Pairwise.nil
    | cons x xs =>
      have hlength := (exchange_perm x xs).length_eq
      rw [List.length_cons,List.length_cons] at hlength
      rw [List.length_cons] at hn
      rw [exchangeSort]
      refine List.Pairwise.cons (fun c hc => ?_) (ih (by omega))
      exact (exchange_latest x xs).2 c ((exchangeSort_perm n _).mem_iff.mp hc)

end Sorting

section Grouping

variable {userId : ℤ} {ms : List HistoryMessage} {m : HistoryMessage} {contacts : List Contact}

/-- The contacts after a message with `other`. -/
def noted (contacts : List Contact) (other time : ℤ) : List Contact :=
  if other ∈ contacts.map Prod.fst then
    contacts.map (fun c => if c.1 = other then (c.1,max c.2 time) else c)
  else contacts ++ [(other,max 0 time)]

/-- With ids that differ, the first contact with an id is the only one. -/
theorem modify_found {other : ℤ} {f : Contact → Contact} {position : ℕ}
    (hnodup : (contacts.map Prod.fst).Nodup)
    (h : contacts.findIdx? (fun c => c.1 = other) = some position) :
    contacts.modify position f = contacts.map (fun c => if c.1 = other then f c else c) := by
  induction contacts generalizing position with
  | nil => simp at h
  | cons c contacts ih =>
    rw [List.map_cons,List.nodup_cons] at hnodup
    rw [List.findIdx?_cons] at h
    by_cases hc : c.1 = other
    · simp only [hc,decide_true,if_true,Option.some.injEq] at h
      subst h
      have hrest : contacts.map (fun c => if c.1 = other then f c else c) = contacts := by
        refine (List.map_congr_left (fun d hd => ?_)).trans (List.map_id _)
        have hne : d.1 ≠ other := by
          rintro rfl
          exact hnodup.1 (hc ▸ List.mem_map_of_mem hd)
        rw [if_neg hne]
        rfl
      rw [List.map_cons,if_pos hc,hrest]
      rfl
    · simp only [hc,decide_false,Bool.false_eq_true,if_false,Option.map_eq_some_iff] at h
      obtain ⟨k,hk,rfl⟩ := h
      rw [List.map_cons,if_neg hc,← ih hnodup.2 hk]
      rfl

theorem otherParty_eq (userId : ℤ) (m : HistoryMessage) :
    otherParty userId m.senderId m.receiverId = (partnerOf userId m).getD (-1) := by
  unfold otherParty partnerOf
  split_ifs <;> rfl

/-- `if (timestamp > last_time[position]) last_time[position] = timestamp;` -/
theorem later_time (c : Contact) (time : ℤ) :
    (if time > c.2 then (c.1,time) else c) = (c.1,max c.2 time) := by
  split_ifs with h
  · rw [max_eq_right (le_of_lt h)]
  · rw [max_eq_left (not_lt.mp h)]

/-- The body of the loop for a record, as long as there is room for a new contact. -/
theorem collectContact_record (hm : m.Storable) (hnodup : (contacts.map Prod.fst).Nodup)
    (hroom : ∀ other, partnerOf userId m = some other → other ≠ -1 →
      other ∉ contacts.map Prod.fst → contacts.length < maxUsers) :
    collectContact userId contacts m.line =
      (partnerOf userId m).elim contacts
        (fun other => if other = -1 then contacts else noted contacts other m.timestamp) := by
  unfold collectContact
  rw [scan_contact hm]
  dsimp only
  rw [otherParty_eq]
  cases hpartner : partnerOf userId m with
  | none => rfl
  | some other =>
    simp only [Option.getD_some,Option.elim_some]
    by_cases hnobody : other = -1
    · rw [if_pos hnobody,if_pos hnobody]
    · rw [if_neg hnobody,if_neg hnobody]
      cases hfound : contacts.findIdx? (fun c => c.1 = other) with
      | some position =>
        have hmem : other ∈ contacts.map Prod.fst := by
          obtain ⟨hlt,hid,-⟩ := List.findIdx?_eq_some_iff_getElem.mp hfound
          exact List.mem_map.mpr ⟨_,List.getElem_mem hlt,by simpa using hid⟩
        simp only [noted,if_pos hmem,modify_found hnodup hfound,later_time]
      | none =>
        have hnew : other ∉ contacts.map Prod.fst := by
          intro hmem
          obtain ⟨c,hc,hid⟩ := List.mem_map.mp hmem
          have hnot := List.findIdx?_eq_none_iff.mp hfound c hc
          simp [hid] at hnot
        have hless := hroom other hpartner hnobody hnew
        simp only [noted,if_neg hnew,if_neg (not_le.mpr hless)]
        have htime : (if m.timestamp > 0 then m.timestamp else 0) = max 0 m.timestamp := by
          split_ifs with h
          · rw [max_eq_right (le_of_lt h)]
          · rw [max_eq_left (not_lt.mp h)]
        rw [htime]

/-- What the loop has collected from the messages read so far. -/
structure Collected (userId : ℤ) (ms : List HistoryMessage) (contacts : List Contact) : Prop where
  nodup : (contacts.map Prod.fst).Nodup
  mem : ∀ id, id ∈ contacts.map Prod.fst ↔ id ∈ partners userId ms ∧ id ≠ -1
  time : ∀ c ∈ contacts, c.2 = latest userId ms c.1

theorem latest_snoc (userId : ℤ) (ms : List HistoryMessage) (m : HistoryMessage) (id : ℤ) :
    latest userId (ms ++ [m]) id =
      if partnerOf userId m = some id then max (latest userId ms id) m.timestamp
      else latest userId ms id := by
  rw [latest,List.filter_append,List.map_append,List.foldl_append]
  split_ifs with h <;> simp [h,latest]

theorem latest_eq_zero {id : ℤ} (h : id ∉ partners userId ms) : latest userId ms id = 0 := by
  have hnone : ms.filter (fun m => partnerOf userId m = some id) = [] := by
    refine List.filter_eq_nil_iff.mpr (fun m hm hid => h ?_)
    exact List.mem_filterMap.mpr ⟨m,hm,of_decide_eq_true hid⟩
  rw [latest,hnone]
  rfl

theorem partners_snoc (userId : ℤ) (ms : List HistoryMessage) (m : HistoryMessage) :
    partners userId (ms ++ [m]) = partners userId ms ++ (partnerOf userId m).toList := by
  rw [partners,List.filterMap_append]
  cases h : partnerOf userId m <;> simp [h,partners]

theorem noted_fst (contacts : List Contact) (other time : ℤ) :
    (noted contacts other time).map Prod.fst =
      if other ∈ contacts.map Prod.fst then contacts.map Prod.fst
      else contacts.map Prod.fst ++ [other] := by
  unfold noted
  split_ifs
  · rw [List.map_map]
    refine List.map_congr_left (fun c _ => ?_)
    rw [Function.comp_apply]
    split_ifs <;> rfl
  · simp

/-- A message that does not belong to a contact changes nothing. -/
theorem Collected.skip (h : Collected userId ms contacts)
    (hm : ∀ id, partnerOf userId m = some id → id = -1) : Collected userId (ms ++ [m]) contacts where
  nodup := h.nodup
  mem id := by
    rw [h.mem,partners_snoc,List.mem_append,Option.mem_toList]
    constructor
    · rintro ⟨hid,hne⟩
      exact ⟨Or.inl hid,hne⟩
    · rintro ⟨hid | hid,hne⟩
      · exact ⟨hid,hne⟩
      · exact absurd (hm id hid) hne
  time c hc := by
    have hne : partnerOf userId m ≠ some c.1 := by
      intro hid
      exact ((h.mem c.1).mp (List.mem_map_of_mem hc)).2 (hm c.1 hid)
    rw [h.time c hc,latest_snoc,if_neg hne]

/-- A message with a partner is noted. -/
theorem Collected.noted (h : Collected userId ms contacts) {other : ℤ}
    (hm : partnerOf userId m = some other) (hne : other ≠ -1) :
    Collected userId (ms ++ [m]) (noted contacts other m.timestamp) where
  nodup := by
    rw [noted_fst]
    split_ifs with hmem
    · exact h.nodup
    · exact List.nodup_append.mpr ⟨h.nodup,List.nodup_singleton _,fun id hid other' hother heq =>
        hmem (List.mem_singleton.mp hother ▸ heq ▸ hid)⟩
  mem id := by
    have hids : id ∈ (Chat.noted contacts other m.timestamp).map Prod.fst ↔
        id ∈ contacts.map Prod.fst ∨ id = other := by
      rw [noted_fst]
      split_ifs with hmem
      · refine ⟨Or.inl,?_⟩
        rintro (hid | rfl)
        · exact hid
        · exact hmem
      · rw [List.mem_append,List.mem_singleton]
    rw [hids,h.mem,partners_snoc,hm,List.mem_append,Option.mem_toList,
      Option.some_inj,eq_comm (a := other)]
    constructor
    · rintro (⟨hid,hid'⟩ | rfl)
      · exact ⟨Or.inl hid,hid'⟩
      · exact ⟨Or.inr rfl,hne⟩
    · rintro ⟨hid | rfl,hid'⟩
      · exact Or.inl ⟨hid,hid'⟩
      · exact Or.inr rfl
  time c hc := by
    unfold Chat.noted at hc
    rw [latest_snoc,hm]
    split_ifs at hc with hmem
    · obtain ⟨d,hd,rfl⟩ := List.mem_map.mp hc
      by_cases hid : d.1 = other
      · rw [if_pos hid,if_pos (congrArg some hid.symm),h.time d hd]
      · rw [if_neg hid,if_neg (fun heq => hid (Option.some.inj heq).symm),h.time d hd]
    · rcases List.mem_append.mp hc with hc | hc
      · have hid : some other ≠ some c.1 := by
          intro heq
          exact hmem (Option.some.inj heq ▸ List.mem_map_of_mem hc)
        rw [if_neg hid,h.time c hc]
      · obtain rfl := List.mem_singleton.mp hc
        have hfirst : latest userId ms other = 0 :=
          latest_eq_zero (fun hin => hmem ((h.mem other).mpr ⟨hin,hne⟩))
        rw [if_pos rfl,hfirst]

/-- A record, when the partners so far and the new one are few enough. -/
theorem Collected.record (h : Collected userId ms contacts) (hm : m.Storable)
    (hfew : (partners userId (ms ++ [m])).toFinset.card ≤ maxUsers) :
    Collected userId (ms ++ [m]) (collectContact userId contacts m.line) := by
  have hroom : ∀ other, partnerOf userId m = some other → other ≠ -1 →
      other ∉ contacts.map Prod.fst → contacts.length < maxUsers := by
    intro other hother hne hnew
    have hnodup : (other::contacts.map Prod.fst).Nodup := List.nodup_cons.mpr ⟨hnew,h.nodup⟩
    have hsubset : (other::contacts.map Prod.fst).toFinset ⊆ (partners userId (ms ++ [m])).toFinset := by
      intro id hid
      rw [List.mem_toFinset] at hid ⊢
      rw [partners_snoc,List.mem_append]
      rcases List.mem_cons.mp hid with rfl | hid
      · exact Or.inr (Option.mem_toList.mpr hother)
      · exact Or.inl ((h.mem id).mp hid).1
    have hcard := (Finset.card_le_card hsubset).trans hfew
    rw [List.toFinset_card_of_nodup hnodup,List.length_cons,List.length_map] at hcard
    omega
  rw [collectContact_record hm h.nodup hroom]
  cases hpartner : partnerOf userId m with
  | none => exact h.skip (by simp [hpartner])
  | some other =>
    rw [Option.elim_some]
    split_ifs with hnobody
    · refine h.skip (fun id hid => ?_)
      rw [hpartner] at hid
      exact (Option.some.inj hid).symm.trans hnobody
    · exact h.noted hpartner hnobody

/-- A line without three numbers is passed over. -/
theorem collectContact_other {text : Bytes} (contacts : List Contact)
    (h : (scan contactFormat (cstr (text ++ [newline]))).length < 3) :
    collectContact userId contacts (text ++ [newline]) = contacts := by
  unfold collectContact
  split
  · next hscan =>
    rw [hscan] at h
    exact absurd h (by simp)
  · rfl

/-- The loop over the file. -/
theorem collected_lines {lines : List DbLine} (hlines : ∀ l ∈ lines, l.WellFormed)
    (hfew : (partners userId (lines.filterMap DbLine.message)).toFinset.card ≤ maxUsers) :
    Collected userId (lines.filterMap DbLine.message)
      ((lines.map DbLine.bytes).foldl (collectContact userId) []) := by
  induction lines using List.reverseRecOn with
  | nil => exact ⟨List.nodup_nil,by simp [partners],by simp⟩
  | append_singleton lines l ih =>
    rw [List.forall_mem_append,List.forall_mem_singleton] at hlines
    have hbefore : (partners userId (lines.filterMap DbLine.message)).toFinset.card ≤ maxUsers := by
      refine (Finset.card_le_card ?_).trans hfew
      intro id hid
      rw [List.mem_toFinset] at hid ⊢
      rw [List.filterMap_append,partners,List.filterMap_append]
      exact List.mem_append_left _ hid
    have hcollected := ih hlines.1 hbefore
    rw [List.map_append,List.foldl_append,List.filterMap_append] at *
    cases l with
    | record m => exact hcollected.record hlines.2.1 hfew
    | other text =>
      change Collected userId (_ ++ []) (collectContact userId _ (text ++ [newline]))
      rw [List.append_nil,collectContact_other _ hlines.2.2]
      exact hcollected

end Grouping

section Lists

variable {s : Server} {env : LineEnv} {i : Slot} {lines : List DbLine}

/-- Each line is read by one `fgets`. -/
theorem fgetsLines_dbLines (hlines : ∀ l ∈ lines, l.WellFormed ∧ l.Short) :
    fgetsLines 1400 (lines.flatMap DbLine.bytes) = lines.map DbLine.bytes := by
  have hmap : lines.flatMap DbLine.bytes = (lines.map DbLine.text).flatMap (fun l => l ++ [newline]) := by
    rw [List.flatMap_map]
    rfl
  rw [hmap,fgetsLines_lines,List.map_map]
  · rfl
  · intro text htext
    obtain ⟨l,hl,rfl⟩ := List.mem_map.mp htext
    cases l with
    | record m => exact not_mem_messageLine (by decide) (by decide) (hlines _ hl).1.1.plain.2
    | other text => exact (hlines _ hl).1.1
  · intro text htext
    obtain ⟨l,hl,rfl⟩ := List.mem_map.mp htext
    have hshort := (hlines l hl).2
    unfold DbLine.Short at hshort
    omega

/-- After the list of conversations has been made, the contacts of the client are the partners of
its messages but for the id -1, each once, and the latest first. -/
theorem conversations_by_time (hopen : s.openMessages env = some (lines.flatMap DbLine.bytes))
    (hlines : ∀ l ∈ lines, l.WellFormed ∧ l.Short)
    (hfew : (partners (s.clients i).userId (lines.filterMap DbLine.message)).toFinset.card ≤
      maxUsers) :
    ListsByTime ((s.showConversationList env i).clients i).menuContactIds
      ((partners (s.clients i).userId (lines.filterMap DbLine.message)).filter (fun id => id ≠ -1))
      (latest (s.clients i).userId (lines.filterMap DbLine.message)) := by
  have hcollected := collected_lines (fun l hl => (hlines l hl).1) hfew
  rw [showConversationList_client,conversations,hopen,Option.getD_some,fgetsLines_dbLines hlines]
  dsimp only
  generalize (lines.map DbLine.bytes).foldl (collectContact (s.clients i).userId) [] = contacts
    at hcollected
  have hperm := exchangeSort_perm contacts.length contacts
  refine ⟨(hperm.map Prod.fst).nodup_iff.mpr hcollected.nodup,fun id => ?_,?_⟩
  · rw [(hperm.map Prod.fst).mem_iff,hcollected.mem,List.mem_filter,decide_eq_true_eq]
  · rw [List.pairwise_map]
    refine (exchangeSort_sorted (le_refl _)).imp_of_mem (fun ha hb hle => ?_)
    rwa [← hcollected.time _ (hperm.mem_iff.mp ha),← hcollected.time _ (hperm.mem_iff.mp hb)]

end Lists

/-- A server with one client, user 1, and a file of messages. -/
def serverWith (db : Bytes) : Server :=
  (Server.boot [] ⟨none,some db⟩ 3 []).setClient 0
    { Client.connected 5 with userId := 1, loggedIn := true, mode := .menu }

/-- The user has written to user 2 and then heard from user 3. -/
def twoPartners : List DbLine :=
  [.record ⟨5,1,2,ascii "hi"⟩,.other (ascii "7|1|"),.record ⟨9,3,1,ascii "yo"⟩]

theorem conversations_by_time_twoPartners :
    ListsByTime (((serverWith (twoPartners.flatMap DbLine.bytes)).showConversationList steadyEnv
      0).clients 0).menuContactIds [2,3] (latest 1 (twoPartners.filterMap DbLine.message)) := by
  have hok : ∀ l ∈ twoPartners, l.WellFormed ∧ l.Short := by decide
  have hopen : (serverWith (twoPartners.flatMap DbLine.bytes)).openMessages steadyEnv =
      some (twoPartners.flatMap DbLine.bytes) := rfl
  exact conversations_by_time (i := 0) hopen hok (by decide)

/-- The list of conversations of every file of such lines is right. -/
def ListsEverything (lines : List DbLine → Prop) : Prop :=
  ∀ (s : Server) (env : LineEnv) (i : Slot) (ls : List DbLine), lines ls →
    (∀ l ∈ ls, l.WellFormed) →
    (partners (s.clients i).userId (ls.filterMap DbLine.message)).toFinset.card ≤ maxUsers →
    s.openMessages env = some (ls.flatMap DbLine.bytes) →
    ListsByTime ((s.showConversationList env i).clients i).menuContactIds
      (partners (s.clients i).userId (ls.filterMap DbLine.message))
      (latest (s.clients i).userId (ls.filterMap DbLine.message))

/-- A line of which the second `fgets` reads what looks like a record. -/
def overlong : DbLine := .other (List.replicate 1399 120 ++ ascii "7|1|2|")

/-- A message from user -1. -/
def fromNobody : DbLine := .record ⟨7,-1,1,ascii "hi"⟩

/-- A line that does not fit the buffer may make a contact, and the id -1 makes none. -/
theorem list_misread : ¬ ListsEverything (fun ls => -1 ∉ partners 1 (ls.filterMap DbLine.message)) ∧
    ¬ ListsEverything (fun ls => ∀ l ∈ ls, l.Short) := by
  constructor
  · intro h
    have hok : ∀ l ∈ [overlong], l.WellFormed := by decide +kernel
    have hlist := h (serverWith (overlong.bytes)) steadyEnv 0 [overlong] (by decide) hok (by decide)
      (by rw [List.flatMap_cons,List.flatMap_nil,List.append_nil]; rfl)
    have hcontact : (2 : ℤ) ∈
        (((serverWith overlong.bytes).showConversationList steadyEnv 0).clients 0).menuContactIds := by
      rw [showConversationList_client]
      decide +kernel
    exact absurd ((hlist.mem 2).mp hcontact) (by decide)
  · intro h
    have hlist := h (serverWith (fromNobody.bytes)) steadyEnv 0 [fromNobody]
      (by decide) (by decide) (by decide)
      (by rw [List.flatMap_cons,List.flatMap_nil,List.append_nil]; rfl)
    have hcontact : (-1 : ℤ) ∉
        (((serverWith fromNobody.bytes).showConversationList steadyEnv 0).clients 0).menuContactIds := by
      rw [showConversationList_client]
      decide +kernel
    exact hcontact ((hlist.mem (-1)).mpr (by decide))

end NetLab.Chat
