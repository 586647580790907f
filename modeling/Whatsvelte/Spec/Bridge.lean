import Whatsvelte.Spec.Message
import Whatsvelte.Spec.Wire

/-!
# `bridge.rs`: chat keys, and what a message shows

The bridge reads the kind, the text, the media, the thumbnail and the quote of a protocol message. The
content may be nested in wrapper messages: `getBaseMessage` of the library removes seven kinds of them in
one pass, `unwrapWrappers` eight more in a loop. Of each protocol message only the fields are here that
these functions read. `fixed5` is `format!("{:.5}")` on an `f64`.
-/

namespace Whatsvelte.Bridge

/-- `base64::engine::general_purpose::STANDARD`: the URL-safe text in the other alphabet, padded. -/
def base64Standard (bytes : List UInt8) : String :=
  String.ofList ((base64Url bytes).map (fun c => if c = '-' then '+' else if c = '_' then '/' else c) ++
    List.replicate ((3 - bytes.length % 3) % 3) '=')

/-- `Wire.normalizeChatJid` on strings. -/
def normalizeChatJid (jid : Jid) : Jid := String.ofList (Wire.normalizeChatJid jid.toList)

/-! ## The protocol messages -/

/-- What every downloadable message has. -/
structure MediaFields where
  directPath : Option String := none
  mediaKey : Option (List UInt8) := none
  fileSha256 : Option (List UInt8) := none
  fileEncSha256 : Option (List UInt8) := none
  fileLength : Option ℕ := none
  mimetype : Option String := none

structure ButtonsMessage where
  contentText : Option String := none
  footerText : Option String := none

structure ButtonsResponseMessage where
  /-- `SelectedDisplayText`, the one case of `response`. -/
  response : Option String := none
  selectedButtonId : Option String := none

structure ListMessage where
  title : Option String := none
  description : Option String := none
  /-- The titles of the rows of each section. -/
  sections : List (List (Option String)) := []

structure ListResponseMessage where
  title : Option String := none

structure InteractiveMessage where
  /-- The title of the header, the text of the body and of the footer, where there are such. -/
  header : Option (Option String) := none
  body : Option (Option String) := none
  footer : Option (Option String) := none

structure InteractiveResponseMessage where
  body : Option (Option String) := none

/-- `hydrated_four_row_template::Title`. -/
inductive TemplateTitle
  | hydratedTitleText (text : String)
  /-- A document, image, video or location. -/
  | attachment

structure HydratedFourRowTemplate where
  title : Option TemplateTitle := none
  hydratedContentText : Option String := none
  hydratedFooterText : Option String := none

structure TemplateMessage where
  hydratedTemplate : Option HydratedFourRowTemplate := none

structure TemplateButtonReplyMessage where
  selectedDisplayText : Option String := none

structure HighlyStructuredMessage where
  hydratedHsm : Option TemplateMessage := none
  elementName : Option String := none

structure PollCreationMessage where
  name : Option String := none
  /-- The `option_name` of each option. -/
  options : List (Option String) := []

structure OrderMessage where
  orderTitle : Option String := none
  message : Option String := none

structure ProductMessage where
  /-- The title of the product, where there is one. -/
  product : Option (Option String) := none
  body : Option String := none

structure ContactMessage where
  displayName : Option String := none

structure LocationMessage where
  name : Option String := none
  address : Option String := none
  degreesLatitude : Option Float := none
  degreesLongitude : Option Float := none

mutual

structure ContextInfo where
  stanzaId : Option String := none
  participant : Option Jid := none
  quotedMessage : Option Message := none

structure ExtendedTextMessage where
  text : Option String := none
  jpegThumbnail : Option (List UInt8) := none
  contextInfo : Option ContextInfo := none

structure ImageMessage where
  file : MediaFields := {}
  caption : Option String := none
  width : Option ℕ := none
  height : Option ℕ := none
  jpegThumbnail : Option (List UInt8) := none
  contextInfo : Option ContextInfo := none

structure VideoMessage where
  file : MediaFields := {}
  caption : Option String := none
  width : Option ℕ := none
  height : Option ℕ := none
  seconds : Option ℕ := none
  gifPlayback : Option Bool := none
  jpegThumbnail : Option (List UInt8) := none
  contextInfo : Option ContextInfo := none

structure AudioMessage where
  file : MediaFields := {}
  seconds : Option ℕ := none
  contextInfo : Option ContextInfo := none

structure DocumentMessage where
  file : MediaFields := {}
  caption : Option String := none
  fileName : Option String := none
  contextInfo : Option ContextInfo := none

structure StickerMessage where
  file : MediaFields := {}
  width : Option ℕ := none
  height : Option ℕ := none
  isAnimated : Option Bool := none
  contextInfo : Option ContextInfo := none

/-- `FutureProofMessage`, and of a `DeviceSentMessage` what is read. -/
structure FutureProofMessage where
  message : Option Message := none

/-- `wa::Message`. -/
structure Message where
  conversation : Option String := none
  extendedTextMessage : Option ExtendedTextMessage := none
  imageMessage : Option ImageMessage := none
  videoMessage : Option VideoMessage := none
  ptvMessage : Option VideoMessage := none
  audioMessage : Option AudioMessage := none
  documentMessage : Option DocumentMessage := none
  stickerMessage : Option StickerMessage := none
  buttonsMessage : Option ButtonsMessage := none
  buttonsResponseMessage : Option ButtonsResponseMessage := none
  listMessage : Option ListMessage := none
  listResponseMessage : Option ListResponseMessage := none
  interactiveMessage : Option InteractiveMessage := none
  interactiveResponseMessage : Option InteractiveResponseMessage := none
  templateMessage : Option TemplateMessage := none
  templateButtonReplyMessage : Option TemplateButtonReplyMessage := none
  highlyStructuredMessage : Option HighlyStructuredMessage := none
  pollCreationMessage : Option PollCreationMessage := none
  pollCreationMessageV2 : Option PollCreationMessage := none
  pollCreationMessageV3 : Option PollCreationMessage := none
  orderMessage : Option OrderMessage := none
  productMessage : Option ProductMessage := none
  contactMessage : Option ContactMessage := none
  locationMessage : Option LocationMessage := none
  deviceSentMessage : Option FutureProofMessage := none
  ephemeralMessage : Option FutureProofMessage := none
  viewOnceMessage : Option FutureProofMessage := none
  viewOnceMessageV2 : Option FutureProofMessage := none
  viewOnceMessageV2Extension : Option FutureProofMessage := none
  documentWithCaptionMessage : Option FutureProofMessage := none
  editedMessage : Option FutureProofMessage := none
  groupMentionedMessage : Option FutureProofMessage := none
  botInvokeMessage : Option FutureProofMessage := none
  botForwardedMessage : Option FutureProofMessage := none
  statusMentionMessage : Option FutureProofMessage := none
  groupStatusMentionMessage : Option FutureProofMessage := none
  associatedChildMessage : Option FutureProofMessage := none
  lottieStickerMessage : Option FutureProofMessage := none
  spoilerMessage : Option FutureProofMessage := none

end

/-! ## Wrappers -/

/-- The wrapper fields of a message. -/
inductive Wrapper
  | deviceSent | ephemeral | viewOnce | viewOnceV2 | viewOnceV2Extension | documentWithCaption | edited
  | groupMentioned | botInvoke | botForwarded | statusMention | groupStatusMention | associatedChild
  | lottieSticker | spoiler
  deriving DecidableEq, Repr

/-- The wrappers that `get_base_message` removes, in its order. -/
def baseWrappers : List Wrapper :=
  [.deviceSent, .ephemeral, .viewOnce, .viewOnceV2, .viewOnceV2Extension, .documentWithCaption, .edited]

/-- The wrappers that `unwrap_wrappers` removes, in the order of its `or`s. -/
def loopWrappers : List Wrapper :=
  [.groupMentioned, .botInvoke, .botForwarded, .statusMention, .groupStatusMention, .associatedChild,
    .lottieSticker, .spoiler]

def Message.wrapper (m : Message) : Wrapper → Option FutureProofMessage
  | .deviceSent => m.deviceSentMessage
  | .ephemeral => m.ephemeralMessage
  | .viewOnce => m.viewOnceMessage
  | .viewOnceV2 => m.viewOnceMessageV2
  | .viewOnceV2Extension => m.viewOnceMessageV2Extension
  | .documentWithCaption => m.documentWithCaptionMessage
  | .edited => m.editedMessage
  | .groupMentioned => m.groupMentionedMessage
  | .botInvoke => m.botInvokeMessage
  | .botForwarded => m.botForwardedMessage
  | .statusMention => m.statusMentionMessage
  | .groupStatusMention => m.groupStatusMentionMessage
  | .associatedChild => m.associatedChildMessage
  | .lottieSticker => m.lottieStickerMessage
  | .spoiler => m.spoilerMessage

/-- One `if let` of `get_base_message`. -/
def Message.peel (m : Message) (w : Wrapper) : Message :=
  ((m.wrapper w).bind FutureProofMessage.message).getD m

/-- `get_base_message`. -/
def Message.getBaseMessage (m : Message) : Message := baseWrappers.foldl Message.peel m

/-- `next` in the loop of `unwrap_wrappers`: the first field that is set, even where it is empty. -/
def Message.next (cur : Message) : Option Message :=
  (loopWrappers.findSome? cur.wrapper).bind FutureProofMessage.message

/-! A wrapped message is smaller than its wrapper, so the loop ends. -/

theorem sizeOf_wrapper {m inner : Message} {w : Wrapper}
    (h : (m.wrapper w).bind FutureProofMessage.message = some inner) : sizeOf inner < sizeOf m := by
  obtain ⟨f, hf, hinner⟩ := Option.bind_eq_some_iff.1 h
  obtain ⟨_⟩ := f
  cases hinner
  obtain ⟨⟩ := m
  cases w <;> cases hf <;> simp +arith

theorem sizeOf_peel (m : Message) (w : Wrapper) : sizeOf (m.peel w) ≤ sizeOf m := by
  unfold Message.peel
  cases h : (m.wrapper w).bind FutureProofMessage.message with
  | none => exact le_rfl
  | some => exact (sizeOf_wrapper h).le

theorem sizeOf_getBaseMessage (m : Message) : sizeOf m.getBaseMessage ≤ sizeOf m := by
  unfold Message.getBaseMessage
  induction baseWrappers generalizing m with
  | nil => exact le_rfl
  | cons w ws ih => exact (ih (m.peel w)).trans (sizeOf_peel m w)

theorem sizeOf_next {cur inner : Message} (h : cur.next = some inner) : sizeOf inner < sizeOf cur := by
  obtain ⟨f, hf, hinner⟩ := Option.bind_eq_some_iff.1 h
  obtain ⟨w, -, hw⟩ := List.exists_of_findSome?_eq_some hf
  exact sizeOf_wrapper (by rwa [hw])

/-- The loop of `unwrap_wrappers`. -/
def unwrapLoop (cur : Message) : Message :=
  match _h : cur.next with
  | some inner => unwrapLoop inner.getBaseMessage
  | none => cur
termination_by sizeOf cur
decreasing_by exact (sizeOf_getBaseMessage inner).trans_lt (sizeOf_next _h)

/-- `unwrap_wrappers`. -/
def unwrapWrappers (msg : Message) : Message := unwrapLoop msg.getBaseMessage

/-! ## Kind and text -/

def classify (msg : Message) : String :=
  let b := unwrapWrappers msg
  if b.conversation.isSome || b.extendedTextMessage.isSome then "text"
  else if b.imageMessage.isSome then "image"
  else if b.videoMessage.isSome || b.ptvMessage.isSome then "video"
  else if b.audioMessage.isSome then "audio"
  else if b.documentMessage.isSome then "document"
  else if b.stickerMessage.isSome then "sticker"
  else if b.buttonsMessage.isSome || b.buttonsResponseMessage.isSome then "buttons"
  else if b.listMessage.isSome || b.listResponseMessage.isSome then "list"
  else if b.interactiveMessage.isSome || b.interactiveResponseMessage.isSome then "interactive"
  else if b.templateMessage.isSome || b.templateButtonReplyMessage.isSome ||
      b.highlyStructuredMessage.isSome then "template"
  else if b.pollCreationMessage.isSome || b.pollCreationMessageV2.isSome ||
      b.pollCreationMessageV3.isSome then "poll"
  else if b.orderMessage.isSome then "order"
  else if b.productMessage.isSome then "product"
  else if b.contactMessage.isSome then "contact"
  else if b.locationMessage.isSome then "location"
  else "other"

/-- `text_content`. -/
def Message.textContent (m : Message) : Option String :=
  let base := m.getBaseMessage
  (base.conversation.filter fun text => !text.isEmpty).or (base.extendedTextMessage.bind (·.text))

/-- `get_caption`: the first of the three decides, even without a caption. -/
def Message.getCaption (m : Message) : Option String :=
  let base := m.getBaseMessage
  match base.imageMessage, base.videoMessage, base.documentMessage with
  | some image, _, _ => image.caption
  | none, some video, _ => video.caption
  | none, none, some document => document.caption
  | none, none, none => none

/-- `parts.join("\n")`, unless there are no parts. -/
def joined (parts : List (Option String)) : Option String :=
  match parts.filterMap id with
  | [] => none
  | t :: ts => some ("\n".intercalate (t :: ts))

/-- `format!("• {t}")`. -/
def bullet (t : String) : String := "• " ++ t

/-- The text of `HydratedTitleText`. -/
def TemplateTitle.text : TemplateTitle → Option String
  | .hydratedTitleText text => some text
  | .attachment => none

section

variable (fixed5 : Float → String)

/-- The text of a `location_message`. -/
def locationText (m : LocationMessage) : String :=
  (m.name.or m.address).getD
    (fixed5 (m.degreesLatitude.getD 0.0) ++ ", " ++ fixed5 (m.degreesLongitude.getD 0.0))

/-- `structured_text`: the variants in the order in which the source tries them. -/
def structuredText (b : Message) : Option String :=
  [b.buttonsMessage.bind fun m => joined [m.contentText, m.footerText],
    b.buttonsResponseMessage.bind fun m => m.response.or m.selectedButtonId,
    b.listMessage.bind fun m =>
      joined (m.title :: m.description :: m.sections.flatten.map (Option.map bullet)),
    b.listResponseMessage.bind (·.title),
    b.interactiveMessage.bind fun m => joined [m.header.join, m.body.join, m.footer.join],
    b.interactiveResponseMessage.bind (·.body.join),
    (b.templateMessage.bind (·.hydratedTemplate)).bind fun ht =>
      joined [ht.title.bind TemplateTitle.text, ht.hydratedContentText, ht.hydratedFooterText],
    b.templateButtonReplyMessage.bind (·.selectedDisplayText),
    b.highlyStructuredMessage.bind fun m =>
      ((m.hydratedHsm.bind (·.hydratedTemplate)).bind (·.hydratedContentText)).or m.elementName,
    ((b.pollCreationMessage.or b.pollCreationMessageV2).or b.pollCreationMessageV3).bind fun p =>
      joined (p.name :: p.options.map (Option.map bullet)),
    b.orderMessage.bind fun m => m.orderTitle.or m.message,
    b.productMessage.bind fun m => m.product.join.or m.body,
    b.contactMessage.bind (·.displayName),
    b.locationMessage.map (locationText fixed5)].findSome? id

def textOf (msg : Message) : Option String :=
  let base := unwrapWrappers msg
  (base.textContent.or base.getCaption).or (structuredText fixed5 base)

end

/-! ## Media and thumbnail -/

/-- The closure `descriptor` of `media_dto`. -/
def descriptor (file : MediaFields) (mediaType : String) : Option MediaDescriptorDto := do
  let directPath ← file.directPath
  let mediaKey ← file.mediaKey
  let fileSha256 ← file.fileSha256
  let fileEncSha256 ← file.fileEncSha256
  some { directPath, mediaKey := base64Standard mediaKey, fileSha256 := base64Standard fileSha256
         fileEncSha256 := base64Standard fileEncSha256, fileLength := file.fileLength.getD 0, mediaType }

/-- The `MediaDto` of a `video_message` or `ptv_message`. -/
def videoDto (m : VideoMessage) : Option MediaDto := do
  let d ← descriptor m.file "video"
  some { kind := "video", mimetype := m.file.mimetype, fileName := none, width := m.width
         height := m.height, durationSecs := m.seconds, isAnimated := m.gifPlayback, descriptor := d }

/-- The first media of a message decides: where its keys are missing, there is none. -/
def mediaDto (msg : Message) : Option MediaDto :=
  let b := unwrapWrappers msg
  if let some m := b.imageMessage then do
    let d ← descriptor m.file "image"
    some { kind := "image", mimetype := m.file.mimetype, fileName := none, width := m.width
           height := m.height, durationSecs := none, isAnimated := none, descriptor := d }
  else if let some m := b.videoMessage then videoDto m
  else if let some m := b.ptvMessage then videoDto m
  else if let some m := b.audioMessage then do
    let d ← descriptor m.file "audio"
    some { kind := "audio", mimetype := m.file.mimetype, fileName := none, width := none
           height := none, durationSecs := m.seconds, isAnimated := none, descriptor := d }
  else if let some m := b.documentMessage then do
    let d ← descriptor m.file "document"
    some { kind := "document", mimetype := m.file.mimetype, fileName := m.fileName, width := none
           height := none, durationSecs := none, isAnimated := none, descriptor := d }
  else if let some m := b.stickerMessage then do
    let d ← descriptor m.file "sticker"
    some { kind := "sticker", mimetype := m.file.mimetype, fileName := none, width := m.width
           height := m.height, durationSecs := none, isAnimated := m.isAnimated, descriptor := d }
  else none

/-- `thumbnail_b64`. -/
def thumbnailB64 (msg : Message) : Option String :=
  let b := unwrapWrappers msg
  let bytes := [b.imageMessage.bind (·.jpegThumbnail), b.videoMessage.bind (·.jpegThumbnail),
    b.ptvMessage.bind (·.jpegThumbnail), b.extendedTextMessage.bind (·.jpegThumbnail)].findSome? id
  bytes.map base64Standard

/-! ## The quote of a reply -/

/-- `context_info_of`. -/
def contextInfoOf (base : Message) : Option ContextInfo :=
  [base.extendedTextMessage.bind (·.contextInfo), base.imageMessage.bind (·.contextInfo),
    base.videoMessage.bind (·.contextInfo), base.audioMessage.bind (·.contextInfo),
    base.documentMessage.bind (·.contextInfo), base.stickerMessage.bind (·.contextInfo)].findSome? id

/-- `quoted_dto`. Unlike the others it looks at `get_base_message`, not at `unwrap_wrappers`. -/
def quotedDto (fixed5 : Float → String) (msg : Message) : Option QuotedDto := do
  let ci ← contextInfoOf msg.getBaseMessage
  let id ← ci.stanzaId
  match ci.quotedMessage with
  | some m => some { id, senderJid := ci.participant, text := textOf fixed5 m, kind := classify m
                     thumbnail := thumbnailB64 m }
  | none => some { id, senderJid := ci.participant, text := none, kind := "other", thumbnail := none }

end Whatsvelte.Bridge
