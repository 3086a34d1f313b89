import CausalStore.Http.Service
import CausalStore.Proofs.Moves
import CausalStore.Proofs.Wire.RoundTrip

/-!
# Refused requests

A node refuses a request on a channel if the request holds no message, or one that is out of place
there (`Request.Refused`). It has then done nothing, and whatever else arrives is answered as its kind
demands (`Response.Answers`). A request to write is refused if it holds no put (`Request.Unfit`), or one
under a blank key, and otherwise answered with the clock of the write as long as the counter of the
node is not full.
-/

namespace CausalStore

/-! ## Bodies of text -/

namespace Utf8

theorem scanFrom_of_extract {b : ByteArray} {cs : List Char} {i : Nat}
    (h : b.extract i b.size = cs.utf8Encode) : scanFrom b i = cs.map some := by
  induction cs generalizing i with
  | nil =>
    have hsize := congrArg ByteArray.size h
    rw [ByteArray.size_extract, List.utf8Encode_nil, ByteArray.size_empty] at hsize
    rw [scanFrom, if_neg (by omega)]
    rfl
  | cons c cs ih =>
    rw [List.utf8Encode_cons] at h
    have hc : [c].utf8Encode.size = c.utf8Size := by
      rw [List.utf8Encode_singleton, List.size_toByteArray, String.length_utf8EncodeChar]
    have hsize := congrArg ByteArray.size h
    rw [ByteArray.size_extract, ByteArray.size_append, hc, Nat.min_self] at hsize
    have hpos := c.utf8Size_pos
    have hchar : b.utf8DecodeChar? i = some c := by
      rw [ByteArray.utf8DecodeChar?_eq_utf8DecodeChar?_extract, h, ← List.utf8Encode_cons]
      exact List.utf8DecodeChar?_utf8Encode_cons
    have hrest : b.extract (i + c.utf8Size) b.size = cs.utf8Encode := by
      have hcut : (b.extract i b.size).extract c.utf8Size (b.size - i) = cs.utf8Encode := by
        rw [h]
        exact ByteArray.extract_append_eq_right hc.symm (by omega)
      rwa [ByteArray.extract_extract, show min (i + (b.size - i)) b.size = b.size by omega] at hcut
    rw [scanFrom, if_pos (by omega), hchar]
    exact congrArg (some c :: ·) (ih hrest)

/-- Bytes that are the encoding of characters are these characters. -/
theorem scan_utf8Encode (cs : List Char) : scan cs.utf8Encode = cs.map some :=
  scanFrom_of_extract ByteArray.extract_zero_size

end Utf8

namespace Http

theorem mend_map_some (escape : Bool) (cs : List Char) : mend escape (cs.map some) = cs := by
  induction cs generalizing escape with
  | nil => rfl
  | cons c cs ih => exact congrArg (c :: ·) (ih _)

namespace Request

variable {α : Type} {r : Request} {f : Wire.Format α} {a : α}

/-- The characters of the body. -/
def characters (r : Request) : List Char := mend false (Utf8.scan r.body)

/-- A body that is a text is read as this text. -/
theorem characters_of_text {text : String} (h : r.body = text.toUTF8) :
    r.characters = text.toList := by
  rw [characters, h, String.toUTF8, ← String.utf8Encode_toList, Utf8.scan_utf8Encode, mend_map_some]

/-- The request declares its body as structured text, which is not too large and begins with the
value. -/
structure Holds (r : Request) (f : Wire.Format α) (a : α) : Prop where
  declared : r.declaresJson = true
  fits : r.body.size ≤ bodyLimit
  decoded : f.decodeFirst r.characters = .ok a

theorem Holds.unique {b : α} (h : r.Holds f a) (h' : r.Holds f b) : a = b :=
  Except.ok.inj (h.decoded.symm.trans h'.decoded)

/-- The request holds no value, and the first reason there is for it. -/
inductive Unfit (r : Request) (f : Wire.Format α) : BodyError → Prop
  | undeclared : r.declaresJson = false → Unfit r f .undeclared
  | oversized : r.declaresJson = true → bodyLimit < r.body.size → Unfit r f .oversized
  | undecodable {cause : Wire.Cause} : r.declaresJson = true → r.body.size ≤ bodyLimit →
      f.decodeFirst r.characters = .error cause → Unfit r f (.ofCause cause)

theorem Holds.not_unfit {e : BodyError} (h : r.Holds f a) : ¬ r.Unfit f e := by
  intro hunfit
  cases hunfit with
  | undeclared hd => cases hd.symm.trans h.declared
  | oversized _ hs => exact absurd h.fits (Nat.not_le.2 hs)
  | undecodable _ _ hf => cases hf.symm.trans h.decoded

theorem holds_or_unfit (r : Request) (f : Wire.Format α) :
    (∃ a, r.Holds f a) ∨ ∃ e, r.Unfit f e := by
  cases hd : r.declaresJson with
  | false => exact .inr ⟨_, .undeclared hd⟩
  | true =>
    rcases Nat.lt_or_ge bodyLimit r.body.size with hs | hs
    · exact .inr ⟨_, .oversized hd hs⟩
    · cases hf : f.decodeFirst r.characters with
      | ok a => exact .inl ⟨a, hd, hs, hf⟩
      | error cause => exact .inr ⟨_, .undecodable hd hs hf⟩

theorem value_of_declared (hd : r.declaresJson = true) (hs : r.body.size ≤ bodyLimit) :
    r.value f = (f.decodeFirst r.characters).mapError .ofCause := by
  rw [value, if_pos hd, if_neg (Nat.not_lt.2 hs)]
  rfl

theorem Holds.value (h : r.Holds f a) : r.value f = .ok a := by
  rw [value_of_declared h.declared h.fits, h.decoded]
  rfl

theorem Unfit.value {e : BodyError} (h : r.Unfit f e) : r.value f = .error e := by
  cases h with
  | undeclared hd => rw [Request.value, hd, if_neg Bool.false_ne_true]
  | oversized hd hs => rw [Request.value, if_pos hd, if_pos hs]
  | undecodable hd hs hf =>
    rw [value_of_declared hd hs, hf]
    rfl

/-- A request with the text of a value for its body. -/
def carrying (f : Wire.Format α) (a : α) : Request :=
  ⟨"POST", "", some "application/json", (f.encode a).toUTF8⟩

theorem Holds.carrying (h : f.Lossless) (a : α)
    (hfits : (Request.carrying f a).body.size ≤ bodyLimit) : (Request.carrying f a).Holds f a where
  declared := show ((MediaType.parse? "application/json").map (·.isJson)).getD false = true by
    decide +kernel
  fits := hfits
  decoded := by
    rw [characters_of_text rfl]
    exact Wire.Format.decodeFirst_of_decode (h.decode_encode a)

/-- The request holds no message, or one that has no place on the channel. -/
inductive Refused (r : Request) (c : Channel) : Prop
  | unfit {e : BodyError} : r.Unfit Message.format e → Refused r c
  | elsewhere {m : Message} : r.Holds Message.format m → m.channel ≠ c → Refused r c
  | unsolicited {m : Message} :
      r.Holds Message.format m → m.kind = .joinResponse ∨ m.kind = .stateResponse → Refused r c

end Request
end Http

/-! ## What a node makes of a message -/

/-- The kind of message that answers a message of this kind, if any does. -/
def Message.Kind.reply? : Message.Kind → Option Message.Kind
  | .joinRequest => some .joinResponse
  | .stateRequest => some .stateResponse
  | .joinResponse | .newPeerAnnounce | .update | .stateResponse => none

namespace Node

variable {n n' : Node} {c : Channel} {m : Message} {reply : Option Message}

theorem handleOn_eq_error_iff : (∃ e, n.handleOn c m = .error e) ↔
    m.channel ≠ c ∨ m.kind = .joinResponse ∨ m.kind = .stateResponse := by
  unfold handleOn
  by_cases hc : m.channel = c
  · rw [if_pos hc]
    cases m <;> simp [handle, Message.kind, hc]
  · rw [if_neg hc]
    exact ⟨fun _ => .inl hc, fun _ => ⟨_, rfl⟩⟩

/-- Requests are replied to, and nothing else that is taken. -/
theorem reply_of_handleOn (h : n.handleOn c m = .ok (n', reply)) :
    reply.map Message.kind = m.kind.reply? ∧
      (reply = none → m.kind = .update ∨ m.kind = .newPeerAnnounce) := by
  unfold handleOn at h
  split at h
  · cases m <;> cases h <;> simp [Message.kind, Message.Kind.reply?]
  · cases h

end Node

/-! ## Answers -/

namespace Http

variable {n : Node} {c : Channel} {r : Request} {m : Message}

/-- The response that a message of this kind demands. -/
inductive Response.Answers (m : Message) : Response → Prop
  | reply {answer : Message} : m.kind.reply? = some answer.kind →
      Answers m (.json 200 (Message.format.encode answer))
  | taken : m.kind = .update ∨ m.kind = .newPeerAnnounce → Answers m (.empty 204)

/-- A request that holds a message is refused if the node does not take the message, and otherwise
answered. -/
theorem Request.Holds.answerMessage (h : r.Holds Message.format m) :
    ((m.channel ≠ c ∨ m.kind = .joinResponse ∨ m.kind = .stateResponse) ∧
      ∃ why, answerMessage n c r = .unchanged n (.text 400 why)) ∨
    (¬ (m.channel ≠ c ∨ m.kind = .joinResponse ∨ m.kind = .stateResponse) ∧
      (answerMessage n c r).response.Answers m) := by
  rw [← n.handleOn_eq_error_iff, Http.answerMessage, h.value]
  dsimp only
  cases ht : n.handleOn c m with
  | error e => exact .inl ⟨⟨e, rfl⟩, e.message, rfl⟩
  | ok p =>
    obtain ⟨n', reply⟩ := p
    obtain ⟨hkind, hnone⟩ := Node.reply_of_handleOn ht
    refine .inr ⟨fun ⟨_, he⟩ => (nomatch he), ?_⟩
    cases reply with
    | none => exact .taken (hnone rfl)
    | some answer => exact .reply hkind.symm

/-- A message is either refused by a node that stays as it is, or answered. -/
theorem answerMessage_cases (n : Node) (c : Channel) (r : Request) :
    (r.Refused c ∧ ∃ why, answerMessage n c r = .unchanged n (.text 400 why)) ∨
    (¬ r.Refused c ∧ ∃ m, r.Holds Message.format m ∧
      (answerMessage n c r).response.Answers m) := by
  rcases r.holds_or_unfit Message.format with ⟨m, hm⟩ | ⟨e, he⟩
  · rcases hm.answerMessage (n := n) (c := c) with ⟨hplace, hanswer⟩ | ⟨hplace, hanswer⟩
    · exact .inl ⟨hplace.elim (.elsewhere hm) (.unsolicited hm), hanswer⟩
    · refine .inr ⟨fun hrefused => hplace ?_, m, hm, hanswer⟩
      cases hrefused with
      | unfit h => exact absurd h hm.not_unfit
      | elsewhere h hc => exact .inl (h.unique hm ▸ hc)
      | unsolicited h hk => exact .inr (h.unique hm ▸ hk)
  · exact .inl ⟨.unfit he, e.message, by rw [answerMessage, he.value]⟩

theorem Response.Answers.status_ne {res : Response} (h : res.Answers m) : res.status ≠ 400 := by
  cases h with
  | reply => exact (by decide : 200 ≠ 400)
  | taken => exact (by decide : 204 ≠ 400)

/-! ## What is made of a request to write -/

theorem answerPut_of_unfit {e : BodyError} (h : r.Unfit Wire.Layout.putRequest.format e) :
    answerPut n r = .unchanged n (.text e.status e.message) := by
  rw [answerPut, h.value]

theorem answerPut_of_blank {put : PutRequest} (h : r.Holds Wire.Layout.putRequest.format put)
    (hblank : ∀ x ∈ put.key.toList, WhiteSpace.isWhite x = true) :
    answerPut n r = .unchanged n (.json 400 (refusedPut "key must not be empty")) := by
  rw [answerPut, h.value]
  exact if_pos (List.all_eq_true.2 hblank)

theorem answerPut_of_put {put : PutRequest} {n' : Node} {u : Update}
    (h : r.Holds Wire.Layout.putRequest.format put)
    (hkey : WhiteSpace.isBlankText put.key = false) (hput : n.put put.key put.value = .ok (n', u)) :
    answerPut n r = ⟨n', .json 200
      (Wire.Layout.putResponse.format.encode ⟨true, some u.clock, none⟩), n'.broadcast u⟩ := by
  rw [answerPut, h.value]
  dsimp only
  rw [hkey, hput]
  rfl

/-- In every state of a node and on every channel, exactly the requests that hold no message, or one
that is out of place, are answered with status 400. Then the node stays as it is and sends nothing; any
other message is answered as its kind demands. A request to write that holds no put is answered with
the reason, and changes as little. A put under a blank key is refused in the same way, and every other
put is answered with the clock of the write, unless the node has counted as far as it can. -/
theorem refusal_changes_nothing (n : Node) (r : Request) :
    (∀ c, ((answerMessage n c r).response.status = 400 ↔ r.Refused c) ∧
      (r.Refused c → (answerMessage n c r).node = n ∧ (answerMessage n c r).sends = []) ∧
      (¬ r.Refused c → ∃ m, r.Holds Message.format m ∧
        (answerMessage n c r).response.Answers m)) ∧
    (∀ e, r.Unfit Wire.Layout.putRequest.format e →
      answerPut n r = .unchanged n (.text e.status e.message)) ∧
    ∀ put, r.Holds Wire.Layout.putRequest.format put →
      ((∀ x ∈ put.key.toList, WhiteSpace.isWhite x = true) →
        (answerPut n r).response.status = 400 ∧
        (answerPut n r).node = n ∧ (answerPut n r).sends = []) ∧
      ((¬ ∀ x ∈ put.key.toList, WhiteSpace.isWhite x = true) →
        n.engine.clock.count n.engine.localId < UInt64.size - 1 →
        ∃ n' u, n.put put.key put.value = .ok (n', u) ∧
          n.engine.clock.increment n.engine.localId = .ok u.clock ∧
          answerPut n r = ⟨n', .json 200
            (Wire.Layout.putResponse.format.encode ⟨true, some u.clock, none⟩),
            n'.broadcast u⟩) := by
  refine ⟨fun c => ?_, fun e he => answerPut_of_unfit he,
    fun put hput => ⟨fun hblank => ?_, fun hkey hroom => ?_⟩⟩
  · rcases answerMessage_cases n c r with ⟨hrefused, why, h⟩ | ⟨htaken, m, hm, h⟩
    · rw [h]
      exact ⟨⟨fun _ => hrefused, fun _ => rfl⟩, fun _ => ⟨rfl, rfl⟩, fun hno => absurd hrefused hno⟩
    · exact ⟨⟨fun hs => absurd hs h.status_ne, fun hr => absurd hr htaken⟩,
        fun hr => absurd hr htaken, fun _ => ⟨m, hm, h⟩⟩
  · rw [answerPut_of_blank hput hblank]
    exact ⟨rfl, rfl, rfl⟩
  · obtain ⟨u, h, -, -, hclock⟩ := n.exists_put hroom put.key put.value
    have hblank : WhiteSpace.isBlankText put.key = false :=
      Bool.eq_false_iff.2 (hkey ∘ List.all_eq_true.1)
    exact ⟨_, u, h, hclock, answerPut_of_put hput hblank h⟩

def beginner : Node := .fresh (.onLoopback "a" 7000)

/-- A request with one blank more than there may be. -/
def overlong : Request := ⟨"POST", "", some "application/json", ⟨Array.replicate (bodyLimit + 1) 32⟩⟩

/-- A request for the state that strays to the discovery channel, a request that is too large, on a
channel and to write, and puts under a blank key and under another one. -/
theorem beginner_refuses_stray_and_blank :
    (answerMessage beginner .discovery (.carrying Message.format .stateRequest)).response.status =
        400 ∧
      (answerMessage beginner .discovery (.carrying Message.format .stateRequest)).node = beginner ∧
    (answerMessage beginner .replication overlong).response.status = 400 ∧
    (answerPut beginner overlong).response.status = 413 ∧
    (answerPut beginner (.carrying Wire.Layout.putRequest.format ⟨" ", "v"⟩)).response.status =
        400 ∧
      (answerPut beginner (.carrying Wire.Layout.putRequest.format ⟨" ", "v"⟩)).node = beginner ∧
    (answerPut beginner (.carrying Wire.Layout.putRequest.format ⟨"k", "v"⟩)).response.status =
      200 := by
  have hstray : (Request.carrying Message.format .stateRequest).Refused .discovery :=
    .elsewhere (.carrying Wire.lossless_message .stateRequest (by decide +kernel)) (by decide)
  have hmessage := (refusal_changes_nothing beginner (.carrying Message.format .stateRequest)).1
    .discovery
  have hsize : bodyLimit < overlong.body.size := by simp [overlong, ByteArray.size]
  have hlong {α : Type} (f : Wire.Format α) : overlong.Unfit f .oversized :=
    .oversized (by decide +kernel) hsize
  have hchannel := (refusal_changes_nothing beginner overlong).1 .replication
  have hwrite := (refusal_changes_nothing beginner overlong).2.1 _ (hlong _)
  have hloss : Wire.Layout.putRequest.format.Lossless := Wire.Layout.putRequest.lossless (by decide)
  have hwhite : " ".toList.all WhiteSpace.isWhite = true := by decide
  have hblank := ((refusal_changes_nothing beginner _).2.2 _
    (.carrying hloss ⟨" ", "v"⟩ (by decide +kernel))).1 (List.all_eq_true.1 hwhite)
  have hkey : ¬ "k".toList.all WhiteSpace.isWhite = true := by decide
  obtain ⟨n, u, -, -, hwritten⟩ := ((refusal_changes_nothing beginner _).2.2 _
    (.carrying hloss ⟨"k", "v"⟩ (by decide +kernel))).2 (hkey ∘ List.all_eq_true.2) (by decide +kernel)
  exact ⟨hmessage.1.2 hstray, (hmessage.2.1 hstray).1, hchannel.1.2 (.unfit (hlong _)),
    by rw [hwrite]; rfl, hblank.1, hblank.2.1, by rw [hwritten]; rfl⟩

end Http
end CausalStore
