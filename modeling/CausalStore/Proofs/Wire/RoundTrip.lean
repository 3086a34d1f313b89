import CausalStore.Proofs.Wire.MessageLayouts

/-!
# Nothing is lost on the wire

Whatever is written is read back as what it was (`wire_formats_lossless`). A value with a layout is read
directly, and a message through the tree that it is written as.
-/

namespace CausalStore.Wire

variable {α : Type}

/-- Values survive being written and read. -/
structure Format.Lossless (f : Format α) : Prop where
  decode_encode (a : α) : f.decode (f.encode a) = .ok a
  encode_injective : Function.Injective f.encode
  /-- What was accepted in any form is in its final form once it is written again. -/
  settled {text : String} {a : α} : f.decode text = .ok a →
    (f.decode (f.encode a)).map f.encode = .ok (f.encode a)

theorem Format.lossless_of_decode_encode {f : Format α}
    (h : ∀ a, f.decode (f.encode a) = .ok a) : f.Lossless where
  decode_encode := h
  encode_injective a a' heq := by
    have hdecoded : f.decode (f.encode a) = .ok a' := heq ▸ h a'
    exact Except.ok.inj ((h a).symm.trans hdecoded)
  settled {_ a} _ := by
    rw [h a]
    rfl

theorem Layout.reads_write (l : Layout α) (hs : l.schema.proper = true) (a : α) :
    Reads l.format.reader (l.format.write a) a := by
  have hread := (l.schema.reads_write hs (l.toVal a)).map l.ofVal
  rwa [l.ofVal_toVal] at hread

theorem Layout.lossless (l : Layout α) (hs : l.schema.proper = true) : l.format.Lossless := by
  refine Format.lossless_of_decode_encode fun a => ?_
  have hdecode := Format.decode_of_reads (l.reads_write hs a) .nil .nil
  rwa [List.nil_append, List.append_nil] at hdecode

theorem lossless_message : Message.format.Lossless := by
  refine Format.lossless_of_decode_encode fun m => ?_
  rw [Message.decode_document m.document_encode, Message.meaning?_of_depicts m.depicts_toTree]
  rfl

/-- Every type of value that goes over the wire is written and read without loss: messages of all
kinds, clocks, ids, peers, updates, entries, snapshots, and the requests and responses of clients. -/
theorem wire_formats_lossless :
    Message.format.Lossless ∧ Layout.clock.format.Lossless ∧ Layout.nodeId.format.Lossless ∧
    Layout.peer.format.Lossless ∧ Layout.update.format.Lossless ∧ Layout.entry.format.Lossless ∧
    Layout.snapshot.format.Lossless ∧ Layout.putRequest.format.Lossless ∧
    Layout.putResponse.format.Lossless ∧ Layout.getResponse.format.Lossless ∧
    Layout.dump.format.Lossless :=
  ⟨lossless_message, Layout.clock.lossless (by decide), Layout.nodeId.lossless (by decide),
    Layout.peer.lossless (by decide), Layout.update.lossless (by decide),
    Layout.entry.lossless (by decide), Layout.snapshot.lossless (by decide),
    Layout.putRequest.lossless (by decide), Layout.putResponse.lossless (by decide),
    Layout.getResponse.lossless (by decide), Layout.dump.lossless (by decide)⟩

end CausalStore.Wire
