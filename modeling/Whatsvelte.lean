import Whatsvelte.Proof.Revoke
import Whatsvelte.Proof.Upgrade
import Whatsvelte.Proof.Rollback
import Whatsvelte.Proof.Redeliver
import Whatsvelte.Proof.Resplit
import Whatsvelte.Proof.Sessions
import Whatsvelte.Proof.Wire
import Whatsvelte.Proof.Reactions
import Whatsvelte.Proof.Badge
import Whatsvelte.Proof.Landing
import Whatsvelte.Proof.Addressed
import Whatsvelte.Proof.MovedHistory
import Whatsvelte.Proof.Paging
import Whatsvelte.Proof.Join
import Whatsvelte.Proof.Bounded
import Whatsvelte.Proof.Suffix
import Whatsvelte.Proof.Twins
import Whatsvelte.Proof.Contacts
import Whatsvelte.Proof.Titles
import Whatsvelte.Proof.ReceiptAddress
import Whatsvelte.Proof.Downloads
import Whatsvelte.Proof.Bridge
import Whatsvelte.Proof.Jids
import Whatsvelte.Proof.Linkify
import Whatsvelte.Proof.Toggles
import Whatsvelte.Proof.GifPicker
import Whatsvelte.Proof.Noise
