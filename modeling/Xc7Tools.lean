import Xc7Tools.Clkctl.Keyed
import Xc7Tools.Clkctl.Pulses
import Xc7Tools.Fasm.Guard
import Xc7Tools.FfState.RoundTrip
import Xc7Tools.Netlist.Alias
import Xc7Tools.Netlist.JtagCtlFrame
import Xc7Tools.Netlist.OpenilaFrame
import Xc7Tools.Openila.Readout
import Xc7Tools.BitOwners.Verdict
import Xc7Tools.Sweep.Verify
import Xc7Tools.Payload.Tidy
import Xc7Tools.Openila.SameDriver
import Xc7Tools.Openila.Rearm
import Xc7Tools.EthDma.Transmit
import Xc7Tools.EthDma.Receive
import Xc7Tools.EthGmii.Transmit
import Xc7Tools.EthGmii.Receive
import Xc7Tools.Tftp.Delivery
import Xc7Tools.Openila.Control
import Xc7Tools.LutramFifo.Order
import Xc7Tools.StageRv64.Recovery
import Xc7Tools.Fasm.Language
import Xc7Tools.Readback.Frames
import Xc7Tools.UnnamedBits.Report
import Xc7Tools.EthminVm.Requests
import Xc7Tools.StageRv64.Images
import Xc7Tools.Tftp.Request
import Xc7Tools.Tftp.Resolve
import Xc7Tools.Openila.WriteSlot
import Xc7Tools.Openila.Trigger
import Xc7Tools.Lib.Vcd
import Xc7Tools.Lib.Replay
import Xc7Tools.Openila.Vcd
import Xc7Tools.Openila.GuiVcd
import Xc7Tools.Openila.Jobs
import Xc7Tools.Openila.Columns
import Xc7Tools.Openila.Hex
import Xc7Tools.OcamlFpu.Unit
import Xc7Tools.Sonata.Uf2
import Xc7Tools.LinuxPayload.Exact
import Xc7Tools.NfsrootDtb.CommandLine
import Xc7Tools.Ethmin.Inbound
