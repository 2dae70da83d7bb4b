import NetLab.Foundation.Offers
import NetLab.Foundation.Segment
import NetLab.Foundation.Text

/-! `send_all`, of which the two chat servers and the client have a copy each: one loop of `send`
calls until the whole buffer is taken. -/
namespace NetLab

/-- What `send` returns; -1 comes with `errno`, which is `EINTR` or another. -/
inductive SendAnswer
  | count (n : ℕ)
  | interrupted
  | failed
deriving DecidableEq

/-- `send(fd, data, length, 0)` with its answer. -/
structure SendCall where
  fd : ℤ
  data : ℕ
  length : ℕ
  answer : SendAnswer

/-- The calls made, and the code returned if the last of them is not still waiting. -/
structure Sending where
  calls : List SendCall
  code : Option ℤ

def Sending.after (s : Sending) (call : SendCall) : Sending := { s with calls := call::s.calls }

/-- The loop with `sent` bytes sent, a `size_t`; `buffer` is the address of the first byte. -/
def sendLoop (fd : ℤ) (buffer length : ℕ) : ℕ → List SendAnswer → Sending
  | sent,[] => ⟨[],if sent < length then none else some 0⟩
  | sent,answer::answers =>
    if sent < length then
      Sending.after
        (match answer with
          | .interrupted => sendLoop fd buffer length sent answers
          | .failed => ⟨[],some (-1)⟩
          | .count n => sendLoop fd buffer length ((sent+n)%2^64) answers)
        ⟨fd,buffer+sent,length-sent,answer⟩
    else ⟨[],some 0⟩

def Chat.sendAll (fd : ℤ) (buffer length : ℕ) (answers : List SendAnswer) : Sending :=
  sendLoop fd buffer length 0 answers

def GroupChat.sendAll (fd : ℤ) (buffer length : ℕ) (answers : List SendAnswer) : Sending :=
  sendLoop fd buffer length 0 answers

def ChatClient.sendAll (fd : ℤ) (buffer length : ℕ) (answers : List SendAnswer) : Sending :=
  sendLoop fd buffer length 0 answers

namespace SendCall

/-- A call that sends anything sends at least one byte and no more than it was given. -/
def Answered (c : SendCall) : Prop :=
  match c.answer with
  | .count n => 1 ≤ n ∧ n ≤ c.length
  | _ => True

instance (c : SendCall) : Decidable c.Answered := by
  unfold Answered
  split <;> infer_instance

def sent (c : SendCall) : ℕ :=
  match c.answer with
  | .count n => n
  | _ => 0

/-- What the call offers of the memory. -/
def offer (mem : ℕ → UInt8) (c : SendCall) : Offer UInt8 := ⟨segment mem c.data c.length,c.sent⟩

end SendCall

/-- The pieces that the calls have sent, one after the other. -/
def pieces (mem : ℕ → UInt8) (calls : List SendCall) : Bytes :=
  kept (calls.map (SendCall.offer mem))

def sentBy (calls : List SendCall) : ℕ := (calls.map SendCall.sent).sum

/-- The rounds of the loop from `sent` bytes on, up to its end or to the last answer. -/
inductive Rounds (fd : ℤ) (buffer length : ℕ) : ℕ → List SendAnswer → Sending → Prop
  | done (answers : List SendAnswer) : Rounds fd buffer length length answers ⟨[],some 0⟩
  | waiting {sent : ℕ} (hsent : sent < length) : Rounds fd buffer length sent [] ⟨[],none⟩
  | interrupted {sent : ℕ} {answers : List SendAnswer} {s : Sending} (hsent : sent < length)
    (h : Rounds fd buffer length sent answers s) : Rounds fd buffer length sent
      (.interrupted::answers) (s.after ⟨fd,buffer+sent,length-sent,.interrupted⟩)
  | failed {sent : ℕ} (answers : List SendAnswer) (hsent : sent < length) :
    Rounds fd buffer length sent (.failed::answers)
      ⟨[⟨fd,buffer+sent,length-sent,.failed⟩],some (-1)⟩
  | count {sent n : ℕ} {answers : List SendAnswer} {s : Sending} (hn : 1 ≤ n)
    (hsent : sent+n ≤ length) (h : Rounds fd buffer length (sent+n) answers s) :
    Rounds fd buffer length sent (.count n::answers)
      (s.after ⟨fd,buffer+sent,length-sent,.count n⟩)

section Loop

variable {fd : ℤ} {buffer length sent : ℕ} {answers : List SendAnswer} {s : Sending}

@[simp] theorem sentBy_nil : sentBy [] = 0 := rfl

@[simp] theorem sentBy_cons (c : SendCall) (calls : List SendCall) :
    sentBy (c::calls) = c.sent+sentBy calls := by simp [sentBy]

/-- The loop runs in rounds as long as `send` answers as it should. -/
theorem sendLoop_rounds (hlength : length < 2^64) (hsent : sent ≤ length)
    (h : ∀ c ∈ (sendLoop fd buffer length sent answers).calls, c.Answered) :
    Rounds fd buffer length sent answers (sendLoop fd buffer length sent answers) := by
  induction answers generalizing sent with
  | nil =>
    rw [sendLoop]
    split_ifs with hmore
    · exact .waiting hmore
    · obtain rfl : sent = length := by omega
      exact .done []
  | cons answer answers ih =>
    simp only [sendLoop] at h ⊢
    split_ifs at h ⊢ with hmore
    · obtain ⟨hfirst,hrest⟩ := List.forall_mem_cons.mp h
      cases answer with
      | interrupted => exact .interrupted hmore (ih hsent hrest)
      | failed => exact .failed answers hmore
      | count n =>
        obtain ⟨hpos,hfit⟩ : 1 ≤ n ∧ n ≤ length-sent := hfirst
        have hnext : (sent+n)%2^64 = sent+n := Nat.mod_eq_of_lt (by omega)
        simp only [hnext] at hrest ⊢
        exact .count hpos (by omega) (ih (by omega) hrest)
    · obtain rfl : sent = length := by omega
      exact .done _

/-- Each call continues where the ones before it have stopped, and offers all that is left. -/
theorem Rounds.place (h : Rounds fd buffer length sent answers s) {before after : List SendCall}
    {c : SendCall} (hc : s.calls = before ++ c::after) :
    c.fd = fd ∧ c.data = buffer+(sent+sentBy before) ∧
      c.length = length-(sent+sentBy before) ∧ sent+sentBy before < length := by
  induction h generalizing before with
  | done => simp at hc
  | waiting => simp at hc
  | failed answers hsent =>
    cases before with
    | nil =>
      obtain ⟨rfl,-⟩ := List.cons.inj hc
      exact ⟨rfl,rfl,rfl,hsent⟩
    | cons first before => simp at hc
  | interrupted hsent _ ih =>
    cases before with
    | nil =>
      obtain ⟨rfl,-⟩ := List.cons.inj hc
      exact ⟨rfl,rfl,rfl,hsent⟩
    | cons first before =>
      obtain ⟨rfl,hrest⟩ := List.cons.inj hc
      simpa [SendCall.sent] using ih hrest
  | @count sent n answers s hn hsent _ ih =>
    cases before with
    | nil =>
      obtain ⟨rfl,-⟩ := List.cons.inj hc
      exact ⟨rfl,rfl,rfl,by simp; omega⟩
    | cons first before =>
      obtain ⟨rfl,hrest⟩ := List.cons.inj hc
      simpa [SendCall.sent,Nat.add_assoc] using ih hrest

/-- The calls offer the buffer and then what is left over of it. -/
theorem Rounds.resumes (h : Rounds fd buffer length sent answers s) (mem : ℕ → UInt8) :
    sent+sentBy s.calls ≤ length ∧
      Resumes (segment mem (buffer+sent) (length-sent)) (s.calls.map (SendCall.offer mem))
        (segment mem (buffer+(sent+sentBy s.calls)) (length-(sent+sentBy s.calls))) := by
  induction h with
  | done => exact ⟨le_refl _,.nil _⟩
  | waiting hsent => exact ⟨le_of_lt hsent,.nil _⟩
  | failed answers hsent => exact ⟨le_of_lt hsent,.cons 0 (.nil _)⟩
  | interrupted hsent _ ih =>
    have hall := ih.2
    rw [Sending.after,sentBy_cons,SendCall.sent,Nat.zero_add]
    exact ⟨ih.1,.cons 0 hall⟩
  | @count sent n answers s hn hsent _ ih =>
    have hleft : (segment mem (buffer+sent) (length-sent)).drop n =
        segment mem (buffer+(sent+n)) (length-(sent+n)) := by
      rw [segment_drop _ _ _ _ (by omega),Nat.add_assoc,Nat.sub_sub]
    have hall := ih.2
    rw [← hleft,Nat.add_assoc] at hall
    rw [Sending.after,sentBy_cons,SendCall.sent]
    exact ⟨by rw [← Nat.add_assoc]; exact ih.1,.cons n hall⟩

/-- The loop ends with 0 when everything is sent. -/
theorem Rounds.done_iff (h : Rounds fd buffer length sent answers s) :
    s.code = some 0 ↔ sent+sentBy s.calls = length := by
  induction h with
  | done => simp
  | waiting hsent => simp [Nat.ne_of_lt hsent]
  | failed answers hsent => simp [SendCall.sent,Nat.ne_of_lt hsent]
  | interrupted hsent _ ih => simpa [Sending.after,SendCall.sent] using ih
  | count hn hsent _ ih => simpa [Sending.after,SendCall.sent,Nat.add_assoc] using ih

/-- The loop ends with -1 when `send` fails. -/
theorem Rounds.failed_iff (h : Rounds fd buffer length sent answers s) :
    s.code = some (-1) ↔ ∃ c ∈ s.calls, c.answer = .failed := by
  induction h with
  | done => simp
  | waiting hsent => simp
  | failed answers hsent => simp
  | interrupted hsent _ ih => simpa [Sending.after] using ih
  | count hn hsent _ ih => simpa [Sending.after] using ih

theorem Rounds.code (h : Rounds fd buffer length sent answers s) (hreturned : s.code ≠ none) :
    s.code = some 0 ∨ s.code = some (-1) := by
  induction h with
  | done => exact Or.inl rfl
  | waiting => contradiction
  | failed => exact Or.inr rfl
  | interrupted _ _ ih => exact ih hreturned
  | count _ _ _ ih => exact ih hreturned

/-- While the loop waits, every answer was an interruption or has brought it on. -/
theorem Rounds.waits (h : Rounds fd buffer length sent answers s) (hwaits : s.code = none) :
    sent+answers.length < length+answers.count .interrupted := by
  induction h with
  | done => contradiction
  | waiting hsent => simpa using hsent
  | failed => contradiction
  | interrupted hsent _ ih =>
    have hrest := ih hwaits
    rw [List.length_cons,List.count_cons_self]
    omega
  | count hn hsent _ ih =>
    have hrest := ih hwaits
    rw [List.length_cons,List.count_cons_of_ne (by simp)]
    omega

end Loop

/-- The calls have sent the beginning of the buffer, and the code says how far they have come. -/
structure SentInOrder (mem : ℕ → UInt8) (fd : ℤ) (buffer length : ℕ) (s : Sending) : Prop where
  pieces_prefix : pieces mem s.calls <+: segment mem buffer length
  whole : s.code = some 0 ↔ pieces mem s.calls = segment mem buffer length
  failed : s.code = some (-1) ↔ ∃ c ∈ s.calls, c.answer = .failed
  cut : s.code = some (-1) → pieces mem s.calls ≠ segment mem buffer length
  code : s.code ≠ none → s.code = some 0 ∨ s.code = some (-1)
  inside : ∀ before c after, s.calls = before ++ c::after → c.fd = fd ∧
    c.data = buffer+(pieces mem before).length ∧ c.length = length-(pieces mem before).length ∧
    (pieces mem before).length < length

/-- No initial part of a stream holds a symbol more often than the whole stream. -/
theorem count_range_le {α : Type*} [DecidableEq α] {f : ℕ → α} {x : α}
    (h : Set.Finite {n | f n = x}) (n : ℕ) : ((List.range n).map f).count x ≤ h.toFinset.card := by
  have hnodup : ((List.range n).filter (fun k => f k == x)).Nodup := List.nodup_range.filter _
  have hsubset : ((List.range n).filter (fun k => f k == x)).toFinset ⊆ h.toFinset := by
    intro k hk
    have hfk := (List.mem_filter.mp (List.mem_toFinset.mp hk)).2
    simpa using hfk
  rw [List.count,List.countP_map,List.countP_eq_length_filter]
  exact (List.toFinset_card_of_nodup hnodup) ▸ Finset.card_le_card hsubset

section Results

variable {fd : ℤ} {buffer length : ℕ} {answers : List SendAnswer} {s : Sending}

theorem pieces_length {calls : List SendCall} (mem : ℕ → UInt8) (h : ∀ c ∈ calls, c.Answered) :
    (pieces mem calls).length = sentBy calls := by
  induction calls with
  | nil => rfl
  | cons c calls ih =>
    obtain ⟨hfirst,hrest⟩ := List.forall_mem_cons.mp h
    have hfit : c.sent ≤ c.length := by
      unfold SendCall.sent
      unfold SendCall.Answered at hfirst
      split
      · next n hn =>
        rw [hn] at hfirst
        exact hfirst.2
      · exact Nat.zero_le _
    have hkept : (c.offer mem).kept.length = c.sent := by
      simp [Offer.kept,SendCall.offer,hfit]
    rw [pieces] at ih ⊢
    rw [List.map_cons,kept_cons,List.length_append,hkept,ih hrest,sentBy_cons]

theorem Rounds.sentInOrder (h : Rounds fd buffer length 0 answers s) (mem : ℕ → UInt8)
    (hanswered : ∀ c ∈ s.calls, c.Answered) : SentInOrder mem fd buffer length s := by
  obtain ⟨hle,hresumes⟩ := h.resumes mem
  simp only [Nat.zero_add,Nat.add_zero,Nat.sub_zero] at hle hresumes
  have hall : pieces mem s.calls ++ segment mem (buffer+sentBy s.calls) (length-sentBy s.calls) =
      segment mem buffer length := hresumes.kept_append
  have hwhole : s.code = some 0 ↔ pieces mem s.calls = segment mem buffer length := by
    rw [h.done_iff,Nat.zero_add]
    constructor
    · intro hsent
      rw [← hall,hsent,Nat.sub_self,segment_zero,List.append_nil]
    · intro hpieces
      rw [← pieces_length mem hanswered,hpieces,segment_length]
  refine ⟨⟨_,hall⟩,hwhole,h.failed_iff,fun hcode heq => ?_,h.code,fun before c after hc => ?_⟩
  · rw [hwhole.mpr heq] at hcode
    contradiction
  · have hbefore : (pieces mem before).length = sentBy before :=
      pieces_length mem (fun c' hc' => hanswered c' (by rw [hc]; exact List.mem_append_left _ hc'))
    rw [hbefore]
    simpa using h.place hc

end Results

/-- Each copy of `send_all` sends the buffer piece by piece in its order, whatever the answers, and
returns unless it is interrupted for ever. -/
theorem sent_in_order {sendAll : ℤ → ℕ → ℕ → List SendAnswer → Sending}
    (hcopy : sendAll ∈ [Chat.sendAll,GroupChat.sendAll,ChatClient.sendAll]) (mem : ℕ → UInt8)
    (fd : ℤ) (buffer : ℕ) {length : ℕ} (hlength : length < 2^64) :
    (∀ answers, (∀ c ∈ (sendAll fd buffer length answers).calls, c.Answered) →
      SentInOrder mem fd buffer length (sendAll fd buffer length answers)) ∧
    (∀ answers : ℕ → SendAnswer, Set.Finite {n | answers n = .interrupted} →
      (∀ n, ∀ c ∈ (sendAll fd buffer length ((List.range n).map answers)).calls, c.Answered) →
      ∃ n, (sendAll fd buffer length ((List.range n).map answers)).code ≠ none) := by
  obtain rfl : sendAll = fun fd buffer length answers => sendLoop fd buffer length 0 answers := by
    simp only [List.mem_cons,List.not_mem_nil,or_false] at hcopy
    rcases hcopy with rfl | rfl | rfl <;> rfl
  refine ⟨fun answers hanswered => ?_,fun answers hfinite hanswered => ?_⟩
  · exact (sendLoop_rounds hlength (Nat.zero_le _) hanswered).sentInOrder mem hanswered
  · refine ⟨length+hfinite.toFinset.card,fun hwaits => ?_⟩
    have hrounds := sendLoop_rounds hlength (Nat.zero_le _)
      (hanswered (length+hfinite.toFinset.card))
    have hcount := count_range_le hfinite (length+hfinite.toFinset.card)
    have hlong := hrounds.waits hwaits
    rw [List.length_map,List.length_range] at hlong
    omega

/-- A text at address 4096, sent in two pieces with an interruption between them. -/
theorem sent_in_order_hello :
    pieces (storeAt (fun _ => 0) 4096 (ascii "hello"))
      (Chat.sendAll 5 4096 5 [.count 2,.interrupted,.count 3]).calls = ascii "hello" := by
  have hanswered : ∀ c ∈ (Chat.sendAll 5 4096 5 [.count 2,.interrupted,.count 3]).calls,
      c.Answered := by decide
  have hall := (sent_in_order List.mem_cons_self (storeAt (fun _ => 0) 4096 (ascii "hello")) 5 4096
    (by decide : 5 < 2^64)).1 _ hanswered
  exact (hall.whole.mp (by decide)).trans (segment_storeAt_self _ 4096 (ascii "hello"))

end NetLab
