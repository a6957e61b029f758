import LaneCove.Authentication
import LaneCove.Cidr
import LaneCove.Confidentiality
import LaneCove.ConfigFile
import LaneCove.Cooldown
import LaneCove.Endpoint
import LaneCove.Expiry
import LaneCove.Grace
import LaneCove.Hex
import LaneCove.IdentityHiding
import LaneCove.KeyFile
import LaneCove.KeyRelease
import LaneCove.Network
import LaneCove.Pacing
import LaneCove.PacketBuffers
import LaneCove.Recovery
import LaneCove.Rekey
import LaneCove.RequiredFields
import LaneCove.Routing
import LaneCove.Secrecy
import LaneCove.SendOnce
import LaneCove.Startup
import LaneCove.TieBreak
import LaneCove.Traffic
import LaneCove.WindowShift
