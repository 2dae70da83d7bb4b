import NetLab.GroupChat.Broadcast

/-! Who is in the group chat, as a member can tell from what it is sent: the list it was shown at its
login and the announcements since then. -/
namespace NetLab.GroupChat

def joinedEnd : Bytes := ascii " joined the group.\n"
def leftEnd : Bytes := ascii " left the group.\n"
def disconnectedEnd : Bytes := ascii " disconnected.\n"
def system : Bytes := ascii "\n[SYSTEM] "
def listEnd : Bytes := ascii "========================\n"

/-- The part of a text between a beginning and an end. -/
def between (first last text : Bytes) : Option Bytes :=
  if first <+: text ∧ last <:+ text.drop first.length then
    some ((text.drop first.length).take (text.length-first.length-last.length))
  else none

/-- What a text announces. -/
def announcement (text : Bytes) : Option (Room.Change Bytes) :=
  match between system joinedEnd text with
  | some name => some (.joined name)
  | none =>
    match between system leftEnd text with
    | some name => some (.left name)
    | none => (between system disconnectedEnd text).map .left

/-- What a client has been sent since it was last welcomed. -/
def sinceLogin (texts : List Bytes) : List Bytes :=
  (texts.reverse.takeWhile (fun text => text ≠ welcomeText)).reverse

/-- The name in line `number` of a user list, with the mark of its reader. -/
def listedName (number : ℕ) (line : Bytes) : Bytes :=
  (line.drop (decimal number ++ ascii ". ").length).dropLast

/-- The names in the lines of a user list, read by the member called `own`. -/
def shownNames (own : Bytes) (lines : List Bytes) : List Bytes :=
  own::(lines.zipIdx.map (fun p => listedName (p.2+1) p.1)).erase (own ++ ascii " (you)")

/-- The list at the beginning of `texts` and the announcements after it. -/
def memberView (own : Bytes) (texts : List Bytes) : List Bytes :=
  ((texts.dropWhile (fun text => text ≠ listEnd)).filterMap announcement).foldl Room.Change.apply
    (shownNames own ((texts.takeWhile (fun text => text ≠ listEnd)).drop 1))

/-- What the member in slot `k` has been sent since its login. -/
def Server.heardSince (s : Server) (k : Slot) : List Bytes :=
  sinceLogin (textsTo s.sent (s.clients k).fd)

/-- Who is in the room, as the member in slot `k` sees it. -/
def Server.view (s : Server) (k : Slot) : List Bytes :=
  memberView (s.clients k).username (s.heardSince k)

section Announcements

variable {first last text name : Bytes}

theorem between_some (first last name : Bytes) :
    between first last (first ++ name ++ last) = some name := by
  have hfirst : first <+: first ++ name ++ last := by
    rw [List.append_assoc]
    exact List.prefix_append _ _
  have hdrop : (first ++ name ++ last).drop first.length = name ++ last := by
    rw [List.append_assoc,List.drop_left]
  have hlength : (first ++ name ++ last).length-first.length-last.length = name.length := by
    simp only [List.length_append]
    omega
  rw [between,if_pos ⟨hfirst,by rw [hdrop]; exact List.suffix_append _ _⟩,hdrop,hlength,
    List.take_left]

/-- A text with another end. -/
theorem between_none {last' : Bytes} (hlength : last'.length ≤ last.length)
    (hother : ¬ last' <:+ last) (name : Bytes) :
    between first last (first ++ name ++ last') = none := by
  refine if_neg ?_
  rintro ⟨-,hlast⟩
  rw [List.append_assoc,List.drop_left] at hlast
  exact hother (List.suffix_of_suffix_length_le (List.suffix_append _ _) hlast hlength)

theorem announcement_joined (name : Bytes) :
    announcement (joinedText name) = some (.joined name) := by
  have h : between system joinedEnd (joinedText name) = some name := between_some _ _ _
  simp only [announcement,h]

theorem announcement_left (name : Bytes) : announcement (leftText name) = some (.left name) := by
  have hjoined : between system joinedEnd (leftText name) = none :=
    between_none (by decide) (by decide) name
  have hleft : between system leftEnd (leftText name) = some name := between_some _ _ _
  simp only [announcement,hjoined,hleft]

theorem announcement_disconnected (name : Bytes) :
    announcement (disconnectedText name) = some (.left name) := by
  have hjoined : between system joinedEnd (disconnectedText name) = none :=
    between_none (by decide) (by decide) name
  have hleft : between system leftEnd (disconnectedText name) = none :=
    between_none (by decide) (by decide) name
  have hend : between system disconnectedEnd (disconnectedText name) = some name :=
    between_some _ _ _
  simp only [announcement,hjoined,hleft,hend,Option.map_some]

/-- A text that announces nothing, and is no welcome. -/
def Ordinary (text : Bytes) : Prop := announcement text = none ∧ text ≠ welcomeText

/-- What does not begin on a new line is neither. -/
theorem ordinary_of_head (h : text.head? ≠ some newline) : Ordinary text := by
  have hnone : ∀ last, between system last text = none := by
    intro last
    refine if_neg ?_
    rintro ⟨⟨rest,rfl⟩,-⟩
    exact h rfl
  refine ⟨by simp only [announcement,hnone]; rfl,?_⟩
  rintro rfl
  exact h rfl

theorem ordinary_message {line : Bytes} (hname : NameOk name) :
    Ordinary (messageText name line) := by
  obtain ⟨c,rest,rfl⟩ := List.exists_cons_of_ne_nil hname.nonempty
  apply ordinary_of_head
  intro h
  obtain rfl : c = newline := by simpa [messageText] using h
  exact hname.oneLine List.mem_cons_self

theorem ordinary_notice (h : text ∈ notices) : Ordinary text := by
  have hall : ∀ text ∈ notices, text.head? ≠ some newline := by decide
  exact ordinary_of_head (hall text h)

theorem ordinary_refusal (h : text ∈ refusals) : Ordinary text := by
  have hall : ∀ text ∈ refusals, text.head? ≠ some newline := by decide
  exact ordinary_of_head (hall text h)

/-- An announcement is no welcome. -/
theorem announcement_ne_welcome {change : Room.Change Bytes}
    (h : announcement text = some change) : text ≠ welcomeText := by
  rintro rfl
  have hwelcome : announcement welcomeText = none := by decide
  rw [hwelcome] at h
  contradiction

end Announcements

section Lists

variable {s : Server} {k : Slot} {name : Bytes}

/-- The digits of a small number come first. -/
theorem userText_eq (hname : ∀ i ∈ s.online, NameOk (s.clients i).username) {number : ℕ}
    (hnumber : number < 1000) {i : Slot} (hi : i ∈ s.online) :
    s.userText k number i = decimal number ++ ascii ". " ++
      ((s.clients i).username ++ (if i = k then ascii " (you)" else [])) ++ [newline] := by
  have hdigits : (decimal (number : ℤ)).length ≤ 3 := by
    have hneg : ¬ ((number : ℤ) < 0) := by omega
    rw [decimal,if_neg hneg]
    exact natDecimal_length (by decide) (by simpa using hnumber)
  have hshort := (hname i hi).short
  have hmark : (if i = k then ascii " (you)" else []).length ≤ 6 := by
    split <;> decide
  have hend : ascii "\n" = [newline] := by decide
  have hdot : (ascii ". ").length = 2 := by decide
  unfold usernameSize at hshort
  rw [Server.userText,hend,snprintf_of_lt]
  · simp only [List.append_assoc]
  · simp only [List.length_append,hdot,List.length_singleton]
    omega

theorem listedName_userText (hname : ∀ i ∈ s.online, NameOk (s.clients i).username) {number : ℕ}
    (hnumber : number < 1000) {i : Slot} (hi : i ∈ s.online) :
    listedName number (s.userText k number i) =
      (s.clients i).username ++ (if i = k then ascii " (you)" else []) := by
  rw [listedName,userText_eq hname hnumber hi,List.append_assoc (decimal number ++ ascii ". "),
    List.drop_left,List.dropLast_concat]

/-- A line of the list is an ordinary text, and not its end. -/
theorem userText_ordinary (hname : ∀ i ∈ s.online, NameOk (s.clients i).username) {number : ℕ}
    (hnumber : number < 1000) {i : Slot} (hi : i ∈ s.online) :
    Ordinary (s.userText k number i) ∧ s.userText k number i ≠ listEnd := by
  have hneg : ¬ ((number : ℤ) < 0) := by omega
  obtain ⟨c,digits,hc⟩ := List.exists_cons_of_ne_nil (natDecimal_ne_nil (number : ℤ).natAbs)
  have hdigit : isDigit c = true := isDigit_of_mem_natDecimal (by rw [hc]; exact List.mem_cons_self)
  have hhead : (s.userText k number i).head? = some c := by
    rw [userText_eq hname hnumber hi,decimal,if_neg hneg,hc]
    rfl
  constructor
  · apply ordinary_of_head
    rw [hhead]
    intro h
    obtain rfl := Option.some.inj h
    exact absurd hdigit (by decide)
  · intro h
    rw [h] at hhead
    obtain rfl : 61 = c := Option.some.inj hhead
    exact absurd hdigit (by decide)

theorem online_length_le (s : Server) : s.online.length ≤ maxClients := by
  have h := List.length_filter_le
    (fun i => (s.clients i).active && (s.clients i).loggedIn) (List.finRange maxClients)
  rwa [List.length_finRange] at h

/-- The lines of a user list. -/
def Server.listLines (s : Server) (k : Slot) : List Bytes :=
  s.online.zipIdx.map (fun p => s.userText k (p.2+1) p.1)

theorem zipIdx_online {p : Slot × ℕ} (hp : p ∈ s.online.zipIdx) : p.2+1 < 1000 ∧ p.1 ∈ s.online := by
  have hlt := List.snd_lt_of_mem_zipIdx hp
  have hle := online_length_le s
  unfold maxClients at hle
  exact ⟨by omega,List.fst_mem_of_mem_zipIdx hp⟩

theorem listLines_ordinary (hname : ∀ i ∈ s.online, NameOk (s.clients i).username) :
    ∀ line ∈ s.listLines k, Ordinary line ∧ line ≠ listEnd := by
  intro line hline
  obtain ⟨p,hp,rfl⟩ := List.mem_map.mp hline
  obtain ⟨hnumber,hi⟩ := zipIdx_online hp
  exact userText_ordinary hname hnumber hi

/-- Numbering a numbered list again. -/
theorem map_zipIdx_zipIdx {α β γ : Type*} (f : α × ℕ → β) (g : β × ℕ → γ) (l : List α) :
    (l.zipIdx.map f).zipIdx.map g = l.zipIdx.map (fun p => g (f p,p.2)) := by
  apply List.ext_getElem?
  intro n
  cases hn : l[n]? <;> simp [hn]

theorem listLines_names (hname : ∀ i ∈ s.online, NameOk (s.clients i).username) :
    (s.listLines k).zipIdx.map (fun p => listedName (p.2+1) p.1) =
      s.online.map (fun i => (s.clients i).username ++ (if i = k then ascii " (you)" else [])) := by
  have hfst : s.online.zipIdx.map Prod.fst = s.online := List.zipIdx_map_fst 0 _
  conv_rhs => rw [← hfst,List.map_map]
  rw [Server.listLines,map_zipIdx_zipIdx]
  refine List.map_congr_left (fun p hp => ?_)
  obtain ⟨hnumber,hi⟩ := zipIdx_online hp
  exact listedName_userText hname hnumber hi

theorem online_names (hs : s.Sound) : ∀ i ∈ s.online, NameOk (s.clients i).username := by
  intro i hi
  obtain ⟨name,hin⟩ := Option.isSome_iff_exists.mp (room_isSome.mpr hi)
  rw [(room_eq_some.mp hin).2.2]
  exact hs.names i name hin

theorem mem_online_iff {i : Slot} : i ∈ s.online ↔ s.room i = some (s.clients i).username := by
  rw [← room_isSome,Option.isSome_iff_exists]
  constructor
  · rintro ⟨name,hin⟩
    rw [hin,(room_eq_some.mp hin).2.2]
  · intro h
    exact ⟨_,h⟩

/-- The names of the logged-in clients show the room. -/
theorem online_shows (hs : s.Sound) :
    Room.Shows (s.online.map (fun i => (s.clients i).username)) s.room where
  nodup := by
    refine List.Nodup.map_on ?_ ((List.nodup_finRange _).filter _)
    intro i hi j hj heq
    rw [mem_online_iff] at hi hj
    exact hs.distinct i j _ hi (heq ▸ hj)
  mem name := by
    rw [List.mem_map]
    constructor
    · rintro ⟨i,hi,rfl⟩
      exact ⟨i,mem_online_iff.mp hi⟩
    · rintro ⟨i,hi⟩
      exact ⟨i,room_isSome.mp (by rw [hi]; rfl),(room_eq_some.mp hi).2.2⟩

/-- A member reads the names of the others and its own, in some order. -/
theorem shownNames_perm (hs : s.Sound) (hk : k ∈ s.online) :
    (shownNames (s.clients k).username (s.listLines k)).Perm
      (s.online.map (fun i => (s.clients i).username)) := by
  have hsplit := List.perm_cons_erase hk
  have hnodup : s.online.Nodup := (List.nodup_finRange _).filter _
  have hothers : (s.online.erase k).map (fun i => (s.clients i).username ++
      (if i = k then ascii " (you)" else [])) =
        (s.online.erase k).map (fun i => (s.clients i).username) := by
    refine List.map_congr_left (fun i hi => ?_)
    rw [if_neg (hnodup.mem_erase_iff.mp hi).1,List.append_nil]
  have hread := (hsplit.map (fun i => (s.clients i).username ++
      (if i = k then ascii " (you)" else []))).erase ((s.clients k).username ++ ascii " (you)")
  rw [List.map_cons,if_pos rfl,List.erase_cons_head,hothers] at hread
  have hall := hsplit.map (fun i => (s.clients i).username)
  rw [List.map_cons] at hall
  rw [shownNames,listLines_names (online_names hs)]
  exact (hread.cons _).trans hall.symm

end Lists

section Views

variable {s t : Server} {k : Slot} {own name : Bytes} {texts more : List Bytes}

/-- The list ends with its first closing line. -/
theorem memberView_list (h : listEnd ∉ texts) (own : Bytes) (more : List Bytes) :
    memberView own (texts ++ listEnd::more) =
      (more.filterMap announcement).foldl Room.Change.apply (shownNames own (texts.drop 1)) := by
  have hall : ∀ text ∈ texts, decide (text ≠ listEnd) = true := by
    intro text htext
    simpa using ne_of_mem_of_not_mem htext h
  have hend : announcement listEnd = none := by decide
  rw [memberView,List.takeWhile_append_of_pos hall,List.dropWhile_append_of_pos hall]
  simp [hend]

/-- Later texts count with what they announce. -/
theorem memberView_append (h : listEnd ∈ texts) (own : Bytes) (more : List Bytes) :
    memberView own (texts ++ more) =
      (more.filterMap announcement).foldl Room.Change.apply (memberView own texts) := by
  obtain ⟨before,after,rfl,hbefore⟩ := List.eq_append_cons_of_mem h
  rw [List.append_assoc,List.cons_append,memberView_list hbefore,memberView_list hbefore,
    List.filterMap_append,List.foldl_append]

theorem sinceLogin_append (h : ∀ text ∈ more, text ≠ welcomeText) (texts : List Bytes) :
    sinceLogin (texts ++ more) = sinceLogin texts ++ more := by
  have hall : ∀ text ∈ more.reverse, decide (text ≠ welcomeText) = true := by
    intro text htext
    simpa using h text (List.mem_reverse.mp htext)
  rw [sinceLogin,List.reverse_append,List.takeWhile_append_of_pos hall,List.reverse_append,
    List.reverse_reverse]
  rfl

theorem sinceLogin_welcome (texts : List Bytes) : sinceLogin (texts ++ [welcomeText]) = [] := by
  simp [sinceLogin]

/-- The list of a member who has just logged in shows the room. -/
theorem userList_shows (hs : s.Sound) (hk : k ∈ s.online) :
    listEnd ∈ s.userList k ∧ Room.Shows (memberView (s.clients k).username (s.userList k)) s.room := by
  have hlist : s.userList k = ascii "\n===== ONLINE USERS =====\n"::(s.listLines k ++ [listEnd]) := rfl
  have hlines : listEnd ∉ ascii "\n===== ONLINE USERS =====\n"::s.listLines k := by
    rw [List.mem_cons,not_or]
    refine ⟨by decide,fun hmem => ?_⟩
    exact (listLines_ordinary (online_names hs) _ hmem).2 rfl
  have hview : memberView (s.clients k).username (s.userList k) =
      shownNames (s.clients k).username (s.listLines k) := by
    rw [hlist,← List.cons_append,memberView_list hlines]
    rfl
  rw [hview]
  exact ⟨by rw [hlist]; simp,(online_shows hs).perm (shownNames_perm hs hk)⟩

end Views

/-- The act is not the loss of a member, of which nobody is told. -/
def Act.Lossless (a : Act) : Prop := a.move = .lost a.slot → a.before.room a.slot = none

section Acts

variable {s t : Server} {i k : Slot} {a : Act} {as : List Act} {name : Bytes} {move : Move}
  {own told : List Bytes} {happening : Option (Room.Happening Slot Bytes Bytes)}

theorem userList_ordinary (hs : s.Sound) : ∀ text ∈ s.userList k, Ordinary text := by
  intro text htext
  have hlist : s.userList k = ascii "\n===== ONLINE USERS =====\n"::(s.listLines k ++ [listEnd]) := rfl
  rw [hlist,List.mem_cons,List.mem_append,List.mem_singleton] at htext
  rcases htext with rfl | htext | rfl
  · exact ⟨by decide,by decide⟩
  · exact (listLines_ordinary (online_names hs) text htext).1
  · exact ordinary_of_head (by decide)

theorem ordinary_silent (h : ∀ text ∈ own, Ordinary text) : own.filterMap announcement = [] :=
  List.filterMap_eq_nil_iff.mpr (fun text htext => (h text htext).1)

/-- The others are told of the change of an act, if it does not lose a member, and of no other. -/
theorem Did.told_changes (h : Did s i t move happening own told) (hs : s.Sound)
    (hlossless : move = .lost i → s.room i = none) :
    told.filterMap announcement = s.room.changes happening.toList ∧
      ∀ text ∈ told, text ≠ welcomeText := by
  cases h with
  | silent => exact ⟨rfl,by simp⟩
  | refused text htext => exact ⟨rfl,by simp⟩
  | listed => exact ⟨rfl,by simp⟩
  | joined name hname =>
    have hjoined := announcement_joined name
    simp [hjoined,Room.changes,Room.change,announcement_ne_welcome hjoined]
  | spoke name line hname =>
    obtain ⟨hnone,hwelcome⟩ : Ordinary (messageText name line) :=
      ordinary_message (hs.names i name hname)
    simp [hnone,Room.changes,Room.change,hwelcome]
  | left name hname =>
    have hleft := announcement_left name
    simp [hleft,Room.changes,Room.change,hname,announcement_ne_welcome hleft]
  | ended name hname =>
    have hended := announcement_disconnected name
    simp [hended,Room.changes,Room.change,hname,announcement_ne_welcome hended]
  | lost name hname hmove =>
    rw [hlossless hmove] at hname
    contradiction

/-- A member that stays is told nothing of itself. -/
theorem Did.own_quiet (h : Did s i t move happening own told) (ht : t.Sound)
    (hin : s.room i = some name) (hstay : happening ≠ some (.leaves i))
    (hallowed : Room.Run s.room happening.toList t.room) :
    (∀ text ∈ own, Ordinary text) ∧ s.room.changes happening.toList = [] := by
  cases h with
  | silent => exact ⟨by simp,rfl⟩
  | refused text htext =>
    refine ⟨fun sent hsent => ?_,rfl⟩
    obtain rfl := List.mem_singleton.mp hsent
    exact ordinary_refusal htext
  | listed => exact ⟨userList_ordinary ht,rfl⟩
  | joined name' hname =>
    cases hallowed with
    | cons hr _ =>
      rw [hr.1] at hin
      contradiction
  | spoke name' line hname => exact ⟨by simp,rfl⟩
  | left name' hname => exact absurd rfl hstay
  | ended name' hname => exact absurd rfl hstay
  | lost name' hname hmove => exact absurd rfl hstay

/-- One act, for a member who does not leave in it: what it is told announces what happens. -/
theorem Act.Legal.announced (ha : a.Legal) (hs : a.before.Sound) (hlossless : a.Lossless)
    (hin : a.before.room k = some name) (hstay : a.happening ≠ some (.leaves k)) :
    (a.told (a.before.clients k).fd).filterMap announcement =
        a.before.room.changes a.happening.toList ∧
      (∀ text ∈ a.told (a.before.clients k).fd, text ≠ welcomeText) ∧
      (a.after.clients k).fd = (a.before.clients k).fd := by
  obtain ⟨own,told,hdid,houtcome,hroom⟩ := ha.explained hs
  by_cases hk : k = a.slot
  · subst hk
    obtain ⟨hordinary,hnone⟩ := hdid.own_quiet (ha.sound hs) hin hstay hroom
    rw [Act.told,houtcome.own_texts,hnone,ordinary_silent hordinary]
    refine ⟨rfl,fun text htext => (hordinary text htext).2,houtcome.fd ?_⟩
    rw [ha.stays hs hin hstay]
    rfl
  · obtain ⟨hchanges,hwelcome⟩ := hdid.told_changes hs hlossless
    rw [Act.told,houtcome.told_texts hk (by rw [hin]; rfl)]
    exact ⟨hchanges,hwelcome,by rw [houtcome.others k hk]⟩

end Acts

/-- What every member has been sent since its login shows who is in the room. -/
def Server.ViewsShow (s : Server) : Prop :=
  ∀ k name, s.room k = some name → listEnd ∈ s.heardSince k ∧ Room.Shows (s.view k) s.room

section Keeping

variable {s t : Server} {k : Slot} {a : Act} {as : List Act} {name : Bytes}

theorem Act.Legal.sent (ha : a.Legal) (hs : a.before.Sound) : a.before.sent <+: a.after.sent := by
  obtain ⟨own,told,-,houtcome,-⟩ := ha.explained hs
  obtain ⟨log,hlog,-⟩ := houtcome.sent
  exact ⟨log,hlog.symm⟩

theorem textsTo_grown (h : s.sent <+: t.sent) (fd : ℤ) :
    textsTo t.sent fd = textsTo s.sent fd ++ newTexts s t fd := by
  obtain ⟨log,hlog⟩ := h
  rw [newTexts_eq hlog.symm,← hlog,textsTo_append]

/-- A member who stays sees what its new texts announce. -/
theorem view_grown (hsent : s.sent <+: t.sent) (hfd : (t.clients k).fd = (s.clients k).fd)
    (hwelcome : ∀ text ∈ newTexts s t (s.clients k).fd, text ≠ welcomeText)
    (hin : s.room k = some name) (hin' : t.room k = some name) (hlist : listEnd ∈ s.heardSince k) :
    listEnd ∈ t.heardSince k ∧ t.view k =
      ((newTexts s t (s.clients k).fd).filterMap announcement).foldl Room.Change.apply (s.view k) := by
  have hgrown : t.heardSince k = s.heardSince k ++ newTexts s t (s.clients k).fd := by
    rw [Server.heardSince,hfd,textsTo_grown hsent,sinceLogin_append hwelcome]
    rfl
  have hname : (t.clients k).username = (s.clients k).username :=
    (room_eq_some.mp hin').2.2.trans (room_eq_some.mp hin).2.2.symm
  refine ⟨by rw [hgrown]; exact List.mem_append_left _ hlist,?_⟩
  rw [Server.view,hgrown,hname,memberView_append hlist]
  rfl

theorem Idle.viewsShow (h : Idle s t) (hv : s.ViewsShow) : t.ViewsShow := by
  intro k name hin'
  rw [h.room] at hin'
  obtain ⟨hlist,hshows⟩ := hv k name hin'
  obtain ⟨hsent,hnotices⟩ := h.sent (s.clients k).fd
  have hordinary : ∀ text ∈ newTexts s t (s.clients k).fd, Ordinary text :=
    fun text htext => ordinary_notice (hnotices text htext)
  obtain ⟨hlist',hview⟩ := view_grown hsent (h.fd (by rw [hin']; rfl))
    (fun text htext => (hordinary text htext).2) hin' (by rw [h.room,hin']) hlist
  rw [hview,ordinary_silent hordinary,h.room]
  exact ⟨hlist',hshows⟩

/-- Who is in the room after an act and was not before it has just been welcomed and shown the
list. -/
theorem Act.Legal.entered (ha : a.Legal) (hs : a.before.Sound) (hout : a.before.room k = none)
    (hin : a.after.room k = some name) : a.after.heardSince k = a.after.userList k := by
  obtain ⟨own,told,hdid,houtcome,hroom⟩ := ha.explained hs
  have hk : k = a.slot := by
    by_contra hk
    have hsame : a.after.room k = a.before.room k := by
      unfold Server.room
      rw [houtcome.others k hk]
    rw [hsame,hout] at hin
    contradiction
  subst hk
  have hentered : a.happening = some (.enters a.slot name) := happening_enters hout hin
  rw [hentered] at hdid
  cases hdid with
  | joined _ hname =>
    have htexts : textsTo a.after.sent (a.after.clients a.slot).fd =
        textsTo a.before.sent (a.before.clients a.slot).fd ++ [welcomeText] ++
          a.after.userList a.slot := by
      rw [houtcome.fd (by rw [hin]; rfl),textsTo_grown (ha.sent hs),houtcome.own_texts,
        List.append_assoc]
      rfl
    rw [Server.heardSince,htexts,sinceLogin_append,sinceLogin_welcome]
    · rfl
    · exact fun text htext => (userList_ordinary (ha.sound hs) text htext).2

theorem Act.Legal.viewsShow (ha : a.Legal) (hs : a.before.Sound) (hlossless : a.Lossless)
    (hv : a.before.ViewsShow) : a.after.ViewsShow := by
  intro k name hin'
  obtain ⟨-,-,-,-,hroom⟩ := ha.explained hs
  cases hin : a.before.room k with
  | none =>
    have hk : k ∈ a.after.online := room_isSome.mp (by rw [hin']; rfl)
    rw [Server.view,ha.entered hs hin hin']
    exact userList_shows (ha.sound hs) hk
  | some before =>
    have hstay : a.happening ≠ some (.leaves k) := by
      intro hleaves
      rw [hleaves] at hroom
      rw [Room.Run.eq_of_single hroom,Room.after,Function.update_self] at hin'
      contradiction
    have hstill := ha.stays hs hin hstay
    obtain ⟨hlist,hshows⟩ := hv k before hin
    obtain ⟨hchanges,hwelcome,hfd⟩ := ha.announced hs hlossless hin hstay
    obtain ⟨hlist',hview⟩ := view_grown (ha.sent hs) hfd hwelcome hin hstill hlist
    have hnew : newTexts a.before a.after (a.before.clients k).fd = a.told (a.before.clients k).fd := rfl
    rw [hview,hnew,hchanges]
    exact ⟨hlist',hroom.shows hshows hs.distinct⟩

theorem Trace.viewsShow (h : Trace s as t) (hs : s.Sound) (hlossless : ∀ a ∈ as, a.Lossless)
    (hv : s.ViewsShow) : t.ViewsShow := by
  induction h with
  | refl => exact hv
  | idle h _ ih => exact ih (h.sound hs) hlossless (h.viewsShow hv)
  | act a ha _ ih =>
    obtain ⟨hfirst,hrest⟩ := List.forall_mem_cons.mp hlossless
    exact ih (ha.sound hs) hrest (ha.viewsShow hs hfirst hv)

theorem Trace.sent (h : Trace s as t) (hs : s.Sound) : s.sent <+: t.sent := by
  induction h with
  | refl => exact List.prefix_rfl
  | idle h _ ih => exact (h.sent 0).1.trans (ih (h.sound hs))
  | act a ha _ ih => exact (ha.sent hs).trans (ih (ha.sound hs))

/-- A trace: who stays is told of all changes, each once and in their order. -/
theorem Trace.announced (h : Trace s as t) (hs : s.Sound) (hlossless : ∀ a ∈ as, a.Lossless)
    (hin : s.room k = some name) (hstay : Stays k as) :
    (newTexts s t (s.clients k).fd).filterMap announcement =
      s.room.changes (as.filterMap Act.happening) := by
  induction h with
  | refl => rw [newTexts_self]; rfl
  | @idle s t u acts h ht ih =>
    obtain ⟨hsent,hnotices⟩ := h.sent (s.clients k).fd
    have hquiet : (newTexts s t (s.clients k).fd).filterMap announcement = [] :=
      ordinary_silent (fun text htext => ordinary_notice (hnotices text htext))
    have hrest := ih (h.sound hs) hlossless (by rwa [h.room]) hstay
    rw [h.fd (by rw [hin]; rfl),h.room] at hrest
    rw [newTexts_trans hsent (ht.sent (h.sound hs)),List.filterMap_append,hquiet,hrest]
    rfl
  | @act u acts a ha ht ih =>
    obtain ⟨hfirst,hrest⟩ := List.forall_mem_cons.mp hstay
    obtain ⟨hlossless1,hlossless2⟩ := List.forall_mem_cons.mp hlossless
    obtain ⟨-,-,-,-,hroom⟩ := ha.explained hs
    obtain ⟨hchanges,-,hfd⟩ := ha.announced hs hlossless1 hin hfirst
    have hstill := ha.stays hs hin hfirst
    have hlater := ih (ha.sound hs) hlossless2 hstill hrest
    rw [hfd] at hlater
    rw [newTexts_trans (ha.sent hs) (ht.sent (ha.sound hs)),List.filterMap_append,hlater,happenings_cons,
      hroom.changes_append,← hchanges]
    rfl

end Keeping

/-- The event is a `recv` error of a member. -/
def Server.losesMember (s : Server) (e : Entry) : Bool :=
  match s.findClientByFd e.fd,e.recv with
  | some i,.error => e.fd ≠ s.serverFd ∧ (s.room i).isSome
  | _,_ => false

section Runs

variable {s t : Server} {e : Entry} {k : Slot} {name : Bytes}

theorem acts_lossless (h : s.losesMember e = false) : ∀ a ∈ s.acts e, a.Lossless := by
  intro a ha
  unfold Server.acts at ha
  cases hrecv : s.received e with
  | some p =>
    simp only [hrecv] at ha
    obtain ⟨c,-,rfl⟩ := List.mem_map.mp ha
    intro hlost
    contradiction
  | none =>
    simp only [hrecv] at ha
    split_ifs at ha with hserver
    · contradiction
    · split at ha
      · obtain rfl := List.mem_singleton.mp ha
        intro hlost
        contradiction
      · next i hi hanswer =>
        obtain rfl := List.mem_singleton.mp ha
        intro _
        change s.room i = none
        simpa [Server.losesMember,hi,hanswer,hserver] using h
      · contradiction

/-- A run in which no member is lost. -/
theorem lossless_run {es : List Entry}
    (h : (groupChat.restrict (fun s e => s.losesMember e = false)).run es s = some t) :
    groupChat.run es s = some t ∧ ∀ acts : List Act, (∀ a ∈ acts, a.Lossless) →
      ∀ a ∈ groupChat.observe (fun s e acts => acts ++ s.acts e) es s acts, a.Lossless := by
  induction es generalizing s with
  | nil => exact ⟨h,fun acts hacts => hacts⟩
  | cons e es ih =>
    obtain ⟨u,hu,hrest⟩ := Option.bind_eq_some_iff.mp h
    simp only [Machine.restrict] at hu
    split_ifs at hu with hok
    obtain ⟨hrun,hall⟩ := ih hrest
    refine ⟨by rw [Machine.run_cons,hu]; exact hrun,fun acts hacts => ?_⟩
    rw [Machine.observe_cons hu]
    exact hall _ (List.forall_mem_append.mpr ⟨hacts,acts_lossless hok⟩)

/-- As long as no member is lost by a `recv` error, every member can tell from the list it was
shown and the announcements since then who is in the room; and in every further such run it is told
of all joins and departures of the others, each once. -/
theorem membership_exact
    (hs : groupChat.ReachableUnder (fun s e => s.losesMember e = false) s) :
    (∀ k name, s.room k = some name → Room.Shows (s.view k) s.room) ∧
    (∀ es t k, (groupChat.restrict (fun s e => s.losesMember e = false)).run es s = some t →
      (s.room k).isSome = true → Stays k (runActs es s) →
      (newTexts s t (s.clients k).fd).filterMap announcement =
        s.room.changes ((runActs es s).filterMap Act.happening)) := by
  have hviews : s.ViewsShow := by
    refine hs.invariant (I := Server.ViewsShow) ?_ ?_
    · rintro s ⟨serverFd,rfl⟩ k name hk
      have hempty : (Server.boot serverFd).room k = none := rfl
      rw [hempty] at hk
      contradiction
    · intro s e t hreach hviews hok ht
      obtain ⟨hfits,rfl⟩ := groupChat_step.mp ht
      exact (handleEntry_trace hfits).viewsShow (reachable_sound hreach.reachable)
        (acts_lossless hok) hviews
  refine ⟨fun k name hk => (hviews k name hk).2,fun es t k hrun hin hstay => ?_⟩
  obtain ⟨name,hname⟩ := Option.isSome_iff_exists.mp hin
  obtain ⟨hrun,hlossless⟩ := lossless_run hrun
  exact (run_trace hs.reachable hrun).announced (reachable_sound hs.reachable)
    (hlossless [] (by simp)) hname hstay

end Runs

/-- Two clients log in, the second one leaves and comes back under another name. -/
def comeBack : List Entry :=
  [.connection 5,.connection 6,.bytes 5 "a\n",.bytes 6 "b\n/quit\n",.connection 6,.bytes 6 "c\n"]

theorem membership_exact_comeBack : ∃ s, groupChat.run comeBack (Server.boot 3) = some s ∧
    Room.Shows (s.view slotOne) s.room ∧ s.view slotOne = [ascii "c",ascii "a"] := by
  have hrun : ((groupChat.restrict (fun s e => s.losesMember e = false)).run comeBack
      (Server.boot 3)).isSome = true := by decide
  obtain ⟨s,hs⟩ := Option.isSome_iff_exists.mp hrun
  have hstart : (groupChat.run comeBack (Server.boot 3)).map (fun s =>
      (s.room slotOne,s.view slotOne)) = some (some (ascii "a"),[ascii "c",ascii "a"]) := by
    decide +kernel
  have hplain := (lossless_run hs).1
  rw [hplain] at hstart
  obtain ⟨hroom,hview⟩ : s.room slotOne = some (ascii "a") ∧
      s.view slotOne = [ascii "c",ascii "a"] := by simpa using hstart
  have hreach : groupChat.ReachableUnder (fun s e => s.losesMember e = false) s :=
    .of_run (.init ⟨3,rfl⟩) hs
  exact ⟨s,hplain,(membership_exact hreach).1 slotOne _ hroom,hview⟩

/-- Two clients log in, and the connection of the second one breaks. -/
def brokenConnection : List Entry :=
  [.connection 5,.connection 6,.bytes 5 "a\n",.bytes 6 "b\n",{ fd := 6, recv := .error }]

/-- The first one is not told. -/
theorem broken_member_stays_shown : ¬ ∀ s, groupChat.Reachable s → ∀ k name,
    s.room k = some name → Room.Shows (s.view k) s.room := by
  intro h
  have hrun : (groupChat.run brokenConnection (Server.boot 3)).isSome = true := by decide
  obtain ⟨s,hs⟩ := Option.isSome_iff_exists.mp hrun
  have hend : (groupChat.run brokenConnection (Server.boot 3)).map (fun s =>
      (s.room slotOne,decide (ascii "b" ∈ s.view slotOne),
        decide (∃ i, s.room i = some (ascii "b")))) =
      some (some (ascii "a"),true,false) := by decide +kernel
  rw [hs] at hend
  obtain ⟨hroom,hview,hnone⟩ : s.room slotOne = some (ascii "a") ∧ ascii "b" ∈ s.view slotOne ∧
      ¬ ∃ i, s.room i = some (ascii "b") := by simpa using hend
  have hreach : groupChat.Reachable s := .of_run (.init ⟨3,rfl⟩) hs
  exact hnone (((h s hreach slotOne _ hroom).mem _).mp hview)

end NetLab.GroupChat
