import CamkesVm.Machine.Run
import CamkesVm.Can.FrameCodec
import CamkesVm.Commsec.Context
import CamkesVm.Commsec.Replay
import CamkesVm.Commsec.IvUnique
import CamkesVm.Commsec.Delivery
import CamkesVm.Can.QueueThreads
import CamkesVm.Can.FilterTable
import CamkesVm.Can.FilterBanks
import CamkesVm.Can.BitTiming
import CamkesVm.Can.Wakeup
import CamkesVm.Can.Reception
import CamkesVm.Can.InterruptChain
import CamkesVm.Can.FrameLength
import CamkesVm.Can.FilterEffects
import CamkesVm.Can.Acceptance
import CamkesVm.Can.PendingBuffers
import CamkesVm.Can.TransmitCall
import CamkesVm.Can.SpiCommands
import CamkesVm.Can.TimingLimits
import CamkesVm.Ping.PacketSafety
import CamkesVm.Ping.ReplyContents
import CamkesVm.Ping.EchoReply
import CamkesVm.Ping.Rings
import CamkesVm.Proxy.Forward
import CamkesVm.Pwm.Transfers
import CamkesVm.Pilot.Relay
import CamkesVm.Pwm.BusScan
import CamkesVm.Uart.ReadCall
import CamkesVm.Pilot.Framing
import CamkesVm.Introspect.GuestRam
import CamkesVm.Can.TxLayout
import CamkesVm.Can.FilterClear
import CamkesVm.Machine.BinaryPoly
import CamkesVm.Machine.Words
import CamkesVm.Machine.LinearTable
import CamkesVm.Aeslib.Field
import CamkesVm.Aeslib.FieldMul
import CamkesVm.Aeslib.AesTables
import CamkesVm.Aeslib.Rijndael
import CamkesVm.Aeslib.Aes
import CamkesVm.Aeslib.AesCipher
import CamkesVm.Aeslib.AesInverse
import CamkesVm.Machine.Drain
import CamkesVm.Aeslib.Gcm
import CamkesVm.Aeslib.GcmMode
import CamkesVm.Aeslib.GcmHash
import CamkesVm.Aeslib.GcmCounter
import CamkesVm.Aeslib.GcmKey
import CamkesVm.Aeslib.GcmMessage
import CamkesVm.Aeslib.GcmSession
import CamkesVm.Commsec.AesGcm
import CamkesVm.Commsec.AesDelivery
import CamkesVm.Pilot.GroundLink
